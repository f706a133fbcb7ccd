import Offload.Proofs.Leads
import Offload.Proofs.Pipeline.Faults
import Offload.Proofs.Pipeline.Verdict

/-!
# What a shutdown comes back with

A shutdown on a thread other than the worker's comes back with a report, which says whether a fault
has struck the worker and gives the text of that one; unless the pipeline has no owner any more when
it begins, or the destructor of a job fails that it discards. Each step of its own takes it nearer
to that, while code runs only for the destructors of discarded jobs. It waits for locks, at its
beginning for those who borrow the pipeline, and for the worker's thread while that is alive.

## Main results

* `ShuttingDown.of_own`, `ShuttingDown.of_other`: one step of a shutdown, and of another thread.
* `reported_since`: what a shutdown comes back with.
-/

namespace Offload.Pipeline

variable {κ ω V E ν : Type} {plan : Plan κ} {t u : Tid} {choice : Choice}

/-- What a shutdown reports when these faults have struck the worker. -/
def report : List Fault → Except Failure Unit
  | [] => .ok ()
  | fault :: _ => .error (.workerFaulted fault.message)

example : report [.other] = .error (.workerFaulted "non-string panic payload") := rfl

/-- How the worker's thread has ended says which faults have struck the worker. -/
theorem eq_report_of_verdict {w : Option (Work κ V E)} {v : View κ V E ν} (hstaff : Staff w v)
    {outcome : Except Failure Unit} (h : Teardown.verdict? v.shared.health = some outcome) :
    outcome = report (struck? w v.shared).toList := by
  have hended : v.shared.health ≠ .alive := by
    intro halive
    rw [halive] at h
    cases h
  obtain ⟨rfl, -⟩ := calls_of_ended hstaff hended
  rw [struck?]
  cases hhealth : v.shared.health with
  | alive => exact absurd hhealth hended
  | exited | dead _ =>
      rw [hhealth] at h
      cases h
      rfl

/-- Whether a call is a shutdown. -/
def Call.IsShutdown : Call κ V E → Prop
  | .taking reporting => reporting = true
  | .teardown d => d.reporting = true
  | _ => False

/-- How far a shutdown has to go. -/
def Call.downToGo : Call κ V E → Lex (Nat × Nat)
  | .teardown d => d.toGo
  | _ => toLex (42, 0)

section Runs

variable {next : κ → Move κ ω (Request κ V E) Answer (Except E V) ν} {world : ω} {codes : List κ}
  {s s' : State κ ω (Pipeline κ V E) (Call κ V E) Answer (Event V E ν)}
  {frames : Stack κ (Call κ V E) Answer} {bound : Lex (Nat × Nat)} {faults faults' : List Fault}

/-- What a shutdown by thread `t` comes back with in a step from `s` to `s'`, when these faults have
struck the worker. -/
inductive CameBack (t : Tid) (frames : Stack κ (Call κ V E) Answer) (faults : List Fault)
    (s s' : State κ ω (Pipeline κ V E) (Call κ V E) Answer (Event V E ν)) : Prop where
  | reported : s'.stack t = Machine.finishCall (.ok (.stopped (report faults))) frames →
      Passed .cleared s'.history → CameBack t frames faults s s'
  /-- The pipeline has no owner any more when it begins. -/
  | gone : s.stack t = .call (.taking true) :: frames → s.shared.owned = false →
      s'.stack t = Machine.finishCall (.ok .gone) frames → CameBack t frames faults s s'
  /-- The destructor has failed of a job that it has discarded. -/
  | failed (d : Teardown κ V E) (n : Nat) (fault : Fault) :
      s.stack t = .call (.teardown d) :: frames →
      d.stage = .clearing (.finalizing n [] (some fault)) →
      s'.stack t = Machine.finishCall (.error fault) frames → CameBack t frames faults s s'

/-- Whether a shutdown by thread `t` is on its way. -/
inductive ShuttingDown (t : Tid) (frames : Stack κ (Call κ V E) Answer) (bound : Lex (Nat × Nat))
    (s : State κ ω (Pipeline κ V E) (Call κ V E) Answer (Event V E ν)) : Prop where
  | itself (call : Call κ V E) : s.stack t = .call call :: frames → call.IsShutdown →
      call.downToGo ≤ bound → ShuttingDown t frames bound s
  /-- The destructor of a discarded job runs. -/
  | destroying (above : Stack κ (Call κ V E) Answer) (d : Teardown κ V E)
      (c : Channel.Clear (Entry κ V E)) : above ≠ [] → Nested false above →
      s.stack t = above ++ .call (.teardown d) :: frames → d.reporting = true →
      d.stage = .clearing c → d.toGo ≤ bound → ShuttingDown t frames bound s

/-- What a shutdown waits for that cannot go on. -/
inductive Awaits (plan : Plan κ) (next : κ → Move κ ω (Request κ V E) Answer (Except E V) ν)
    (t : Tid) (call : Call κ V E)
    (s : State κ ω (Pipeline κ V E) (Call κ V E) Answer (Event V E ν)) : Prop where
  | lock (l : Lock) : locks.Waits (machine plan next) s t l → Awaits plan next t call s
  /-- Others borrow the pipeline. -/
  | borrowers : call = .taking true → s.shared.owned = true → s.shared.borrows ≠ 0 →
      Awaits plan next t call s
  /-- The worker's thread is alive. -/
  | worker (d : Teardown κ V E) (n : Nat) : call = .teardown d → d.stage = .joining n →
      s.shared.health = .alive → Awaits plan next t call s

theorem ShuttingDown.mono (h : ShuttingDown t frames bound s) {bound' : Lex (Nat × Nat)}
    (hle : bound ≤ bound') : ShuttingDown t frames bound' s := by
  cases h with
  | itself call hstack hcall hgo => exact .itself call hstack hcall (hgo.trans hle)
  | destroying above d c hne hnest hstack hreporting hstage hgo =>
      exact .destroying above d c hne hnest hstack hreporting hstage (hgo.trans hle)

/-- A teardown that a thread makes is among the teardowns of the scene. -/
theorem mem_tearing {v : View κ V E ν} {d : Teardown κ V E}
    (hshows : Machine.Shows (library plan) v s) (hlive : s.aborted = false)
    (hstack : s.stack t = .call (.teardown d) :: frames) :
    d ∈ picks Part.tearing? (v.calls t).all := by
  rw [hshows.calls_eq hlive, hstack]
  exact List.mem_cons_self

/-- **A shutdown, a step of its own.** It comes back, or is nearer to that. -/
theorem of_own_shutdown
    (h : (machine plan next).Observed (strikes next) (start world codes) [] s faults)
    (ht : t ≠ workerThread) {call : Call κ V E} (hcall : call.IsShutdown)
    (hstack : s.stack t = .call call :: frames)
    (hstep : (machine plan next).step t choice s = some s') (hlive' : s'.aborted = false) :
    CameBack t frames faults s s' ∨ ∃ bound < call.downToGo, ShuttingDown t frames bound s' := by
  obtain ⟨v, w, hv, hshows, hstaff, -, rfl⟩ := exists_struck h
  have hlive := (Machine.stepped_of_step hstep).1
  obtain ⟨-, shared, events, r, hturn, haborted, hafter, hshows'⟩ :=
    hshows.turned (machine_fits plan next) hstack hstep
  cases call with
  | taking reporting =>
      obtain rfl : reporting = true := hcall
      cases howned : v.shared.owned with
      | false =>
          simp only [library, turn, howned, Bool.not_false, if_true] at hturn
          cases hturn
          exact .inl (.gone hstack (hshows.shared_eq ▸ howned) hafter)
      | true =>
          simp only [library, turn, howned, Bool.not_true, Bool.false_eq_true, if_false] at hturn
          split at hturn
          · cases hturn
            refine .inr ⟨_, ?_, .itself _ hafter rfl (le_refl _)⟩
            exact Prod.Lex.toLex_lt_toLex.mpr (.inl (Nat.le_of_ble_eq_true rfl))
          · cases hturn
  | teardown d =>
      obtain ⟨r', hturn', rfl⟩ := exists_of_nest hturn
      have hmem := mem_tearing hshows hlive hstack
      have htold := told_of_reach hv t d hmem
      obtain ⟨u₀, x, hclosing⟩ := (orderly_of_reach hv).closing
      obtain ⟨rfl, rfl⟩ := hclosing.sole.eq_of_mem hmem
      cases Teardown.onward_of_turn hturn' htold.plain (hclosing.rested d rfl) with
      | nearer d' hnext hreporting hplain hless hsaid hrun =>
          have hreporting' : d'.reporting = true := hreporting.trans hcall
          refine .inr ⟨_, hless, ?_⟩
          cases r' with
          | stay d'' =>
              cases hnext
              exact .itself _ hafter hreporting' (le_refl _)
          | run code d'' =>
              cases hnext
              obtain ⟨c, hstage⟩ := hrun code rfl
              exact .destroying [.code code] _ c (List.cons_ne_nil _ _) (.code code) hafter
                hreporting' hstage (le_refl _)
          | ret _ | fail _ | abort => cases hnext
      | answered outcome hsaid _ hrests =>
          have hfound := htold.told outcome (hsaid hcall)
          rw [Teardown.found?_of_ne ht] at hfound
          refine .inl (.reported ?_ ?_)
          · rw [← eq_report_of_verdict hstaff hfound]
            exact hafter
          · have hreported := reported_of_reach hv
            have haccount := hreported.accounts t d hmem
            obtain ⟨n, k, hstopped⟩ := (haccount.reported hrests).resolve_left ht
            have hcleared := hreported.final.cleared ⟨_, hstopped, rfl⟩
            rw [← hshows'.history_eq]
            exact hcleared.later _
      | failed n fault hstage => exact .inl (.failed d n fault hstack hstage hafter)
      | broken _ =>
          rw [haborted.mpr rfl] at hlive'
          cases hlive'
  | opening _ | inside _ | closing _ | handle _ | work _ => exact hcall.elim

/-- **A shutdown on its way, a step of its thread.** -/
theorem ShuttingDown.of_own (hs : ShuttingDown t frames bound s)
    (h : (machine plan next).Observed (strikes next) (start world codes) [] s faults)
    (ht : t ≠ workerThread) (hstep : (machine plan next).step t choice s = some s')
    (hlive' : s'.aborted = false) :
    CameBack t frames faults s s' ∨ ShuttingDown t frames bound s' := by
  cases hs with
  | itself call hstack hcall hgo =>
      rcases of_own_shutdown h ht hcall hstack hstep hlive' with hback | ⟨bound', hless, hon⟩
      · exact .inl hback
      · exact .inr (hon.mono (hless.le.trans hgo))
  | destroying above d c hne hnest hstack hreporting hstage hgo =>
      rcases Machine.above_of_step hnest hne hstack hstep with
        ⟨above', hne', hnest', hstack'⟩ | ⟨result, hstack'⟩ | haborted
      · exact .inr (.destroying above' d c hne' hnest' hstack' hreporting hstage hgo)
      · refine .inr (.itself (.teardown (d.resume result)) hstack' ?_
          ((d.toGo_resume_le result).trans hgo))
        exact (d.reporting_resume result).trans hreporting
      · rw [haborted] at hlive'
        cases hlive'

/-- **A shutdown on its way, a step of another thread.** -/
theorem ShuttingDown.of_other (hs : ShuttingDown t frames bound s) (hu : u ≠ t)
    (hstep : (machine plan next).step u choice s = some s') : ShuttingDown t frames bound s' := by
  have hsame := Machine.stack_of_step_ne hstep (Ne.symm hu)
  cases hs with
  | itself call hstack hcall hgo => exact .itself call (hsame.trans hstack) hcall hgo
  | destroying above d c hne hnest hstack hreporting hstage hgo =>
      exact .destroying above d c hne hnest (hsame.trans hstack) hreporting hstage hgo

/-- A teardown that is the topmost layer of its thread can make a step, or waits for a lock or for
the worker's thread. -/
theorem moves_or_waits_of_tearing (h : (machine plan next).Reach (start world codes) s)
    (hlive : s.aborted = false) {d : Teardown κ V E}
    (hstack : s.stack t = .call (.teardown d) :: frames) :
    (∀ choice, ((machine plan next).step t choice s).isSome = true) ∨
      (∃ l, locks.Waits (machine plan next) s t l) ∨
      ∃ n, d.stage = .joining n ∧ s.shared.health = .alive := by
  obtain ⟨v, hv, hshows⟩ := exists_shows h
  have hplain := (told_of_reach hv t d (mem_tearing hshows hlive hstack)).plain
  have hturn : ∀ choice s, (∀ n, d.stage = .joining n → s.health ≠ .alive) →
      (turn plan t choice s (.teardown d) : Option (Pipeline κ V E × List (Event V E ν) ×
        Turn κ (Call κ V E) Answer)).isSome = isFree s d.stage.wants := by
    intro choice s hjoin
    rw [turn, Option.isSome_map, Teardown.isSome_turn hplain hjoin]
  by_cases hjoining : ∃ n, d.stage = .joining n
  · obtain ⟨n, hstage⟩ := hjoining
    by_cases halive : s.shared.health = .alive
    · exact .inr (.inr ⟨n, hstage, halive⟩)
    · refine .inl fun choice => ?_
      refine (Machine.isSome_step_call hlive hstack choice).trans
        ((hturn choice s.shared fun _ _ => halive).trans ?_)
      rw [hstage]
      rfl
  · have hprompt : (Call.teardown d).IsPrompt plan ν t := fun choice s =>
      hturn choice s fun n hstage => absurd ⟨n, hstage⟩ hjoining
    exact (hprompt.moves_or_waits hlive hstack).imp_right .inl

/-- A shutdown that is the topmost layer of its thread can make a step, or waits. -/
theorem moves_or_awaits (h : (machine plan next).Reach (start world codes) s)
    (hlive : s.aborted = false) {call : Call κ V E} (hcall : call.IsShutdown)
    (hstack : s.stack t = .call call :: frames) :
    (∀ choice, ((machine plan next).step t choice s).isSome = true) ∨
      Awaits plan next t call s := by
  cases call with
  | taking reporting =>
      obtain rfl : reporting = true := hcall
      by_cases hfree : s.shared.owned = true ∧ s.shared.borrows ≠ 0
      · exact .inr (.borrowers rfl hfree.1 hfree.2)
      · refine .inl fun choice => ?_
        rw [Machine.isSome_step_call hlive hstack]
        cases howned : s.shared.owned with
        | false => simp [machine, turn, howned]
        | true =>
            have hzero : s.shared.borrows = 0 := by simpa [howned] using hfree
            simp [machine, turn, howned, hzero]
  | teardown d =>
      rcases moves_or_waits_of_tearing h hlive hstack with
        hmoves | ⟨l, hwaits⟩ | ⟨n, hstage, halive⟩
      · exact .inl hmoves
      · exact .inr (.lock l hwaits)
      · exact .inr (.worker d n rfl hstage halive)
  | opening _ | inside _ | closing _ | handle _ | work _ => exact hcall.elim

/-- **What a shutdown comes back with.** In every later state of the run it has come back, or it is
on its way and no further from that. -/
theorem reported_since
    (h : (machine plan next).Observed (strikes next) (start world codes) [] s faults)
    (ht : t ≠ workerThread) {call : Call κ V E} (hcall : call.IsShutdown)
    (hstack : s.stack t = .call call :: frames)
    (h' : (machine plan next).Observed (strikes next) s faults s' faults')
    (hlive : s'.aborted = false) :
    (∃ s₁ faults₁ choice s₂, (machine plan next).Observed (strikes next) s faults s₁ faults₁ ∧
        (machine plan next).step t choice s₁ = some s₂ ∧ (machine plan next).Reach s₂ s' ∧
        CameBack t frames faults₁ s₁ s₂) ∨
      ShuttingDown t frames call.downToGo s' := by
  induction h' with
  | start => exact .inr (.itself call hstack hcall (le_refl _))
  | @step s₂ s₃ faults₂ u choice hobserved hstep ih =>
      rcases ih (Machine.stepped_of_step hstep).1 with
        ⟨s₁, faults₁, choice₁, s₂', hto, hback, hfrom, hcame⟩ | hon
      · exact .inl ⟨s₁, faults₁, choice₁, s₂', hto, hback, .step u choice hfrom hstep, hcame⟩
      · by_cases hu : u = t
        · subst hu
          rcases hon.of_own (h.trans hobserved) ht hstep hlive with hcame | hon'
          · exact .inl ⟨s₂, faults₂, choice, s₃, hobserved, hstep, .start, hcame⟩
          · exact .inr hon'
        · exact .inr (hon.of_other hu hstep)

end Runs

end Offload.Pipeline
