import Offload.Proofs.Leads
import Offload.Proofs.Pipeline.Reporting

/-!
# A teardown on the worker's own thread

A teardown passes its landmarks in order, and its stage says which it has passed. On the worker's
own thread it waits for locks only, which other threads own: it does not join the thread that it
runs on. When it comes back, the entry that ends the worker is all that is pending; for the worker,
which is in the middle of its cycle, takes nothing meanwhile, and nobody else touches what is
pending once that entry is queued.

## Main results

* `passed_of_reach`: the landmarks that a stage stands for have been passed.
* `pending_of_moved`: once the last entry is queued, only the worker touches what is pending.
* `parted_since`: what a teardown on the worker's thread comes back with.
-/

namespace Offload.Pipeline

variable {κ ω V E ν : Type} {plan : Plan κ} {t u : Tid} {choice : Choice}

/-! ### Landmarks -/

namespace Teardown

variable {s s' : Pipeline κ V E} {events : List (Event V E ν)}

/-- The landmarks that a teardown at this stage has passed, but for the count. -/
def Stage.passed : Stage κ V E → List Landmark
  | .claiming => []
  | .closing phase => if phase.held.isSome then [.closed] else []
  | .clearing (.taking phase) => if phase.held.isSome then [.closed, .cleared] else [.closed]
  | .clearing _ | .cleared _ => [.closed, .cleared]
  | .stopping _ p => if p.ahead.isSome then [.closed, .cleared] else [.closed, .cleared, .queued]
  | .parting _ | .joining _ | .counting _ _ _ | .ending _ => [.closed, .cleared, .queued]

/-- The landmarks that a teardown has passed, but for the count. -/
def passed (d : Teardown κ V E) : List Landmark :=
  if d.rests then [.closed, .cleared, .queued] else d.stage.passed

theorem mem_passed_of_rests {d : Teardown κ V E} (h : d.rests = true) {x : Landmark}
    (hx : x ≠ .stopped) : x ∈ d.passed := by
  rw [passed, if_pos h]
  cases x <;> simp at hx ⊢

/-- The pending channel is cleared before the last entry is queued. -/
theorem mem_passed_of_queued {d : Teardown κ V E} (h : .queued ∈ d.passed) :
    .cleared ∈ d.passed := by
  rw [passed] at h ⊢
  split
  · simp
  · next hrests =>
    rw [if_neg hrests] at h
    cases hstage : d.stage with
    | claiming | cleared _ => simp [hstage, Stage.passed] at h
    | closing phase =>
        rw [hstage, Stage.passed] at h
        split at h <;> simp at h
    | clearing c =>
        cases c with
        | taking phase =>
            rw [hstage, Stage.passed] at h
            split at h <;> simp at h
        | finalizing _ _ _ | broken => simp [hstage, Stage.passed] at h
    | stopping _ p =>
        rw [Stage.passed]
        split <;> simp
    | parting _ | joining _ | counting _ _ _ | ending _ => simp [Stage.passed]

theorem passed_resume {ρ : Type} (d : Teardown κ V E) (result : Except Fault ρ) :
    (d.resume result).passed = d.passed := by
  obtain ⟨reporting, earlier, stage⟩ := d
  cases stage with
  | clearing c =>
      cases c with
      | taking phase => cases result <;> rfl
      | finalizing n rest fault => cases result <;> cases fault <;> rfl
      | broken => cases result <;> rfl
  | _ => rfl

/-- A teardown passes the landmarks that its events are. -/
theorem passed_of_turn {d d' : Teardown κ V E}
    {r : Turn κ (Teardown κ V E) (Except Failure Unit)}
    (h : d.turn t choice s = some (s', events, r)) (hplain : d.stage.IsPlain t)
    (hproper : d.stage.IsProper) (hrested : Rested t d s) (hnext : r.next? = some d') :
    d'.passed ⊆ d.passed ++ events.filterMap Event.landmark? := by
  cases stepped_of_turn h with
  | claimed _ =>
      cases hnext
      exact List.nil_subset _
  | @unclaimed _ earlier hjoinable =>
      cases hnext
      cases earlier with
      | none => exact absurd (hrested.unclaimed rfl rfl) (by simp [hjoinable])
      | some report => exact List.subset_append_left _ _
  | closing hvisit =>
      cases hnext
      obtain ⟨rfl, -, heq⟩ | ⟨again, rfl, -, heq⟩ | ⟨answer, rfl, -, heq⟩ :=
        Visit.plain_cases hvisit hplain <;> cases heq
      · exact List.nil_subset _
      · exact List.subset_append_right _ _
  | closed hvisit =>
      cases hnext
      obtain ⟨hphase, -, -⟩ | ⟨again, hphase, -, -⟩ | ⟨answer, hphase, -, -⟩ :=
        Visit.plain_cases hvisit hplain <;> cases hphase
      exact List.subset_append_left _ _
  | closeFailed _ => cases hnext
  | @clearing _ _ c _ _ _ hclear =>
      cases c with
      | taking phase =>
          obtain ⟨⟨c₁, progress⟩, hvisit, heq⟩ := Option.map_eq_some_iff.mp hclear
          cases heq
          obtain ⟨rfl, -, rfl⟩ | ⟨again, rfl, -, rfl⟩ | ⟨entries, rfl, -, rfl⟩ :=
            Visit.plain_cases hvisit hplain <;> cases hnext
          · exact List.subset_append_left _ _
          · exact List.Subset.refl _
          · exact List.subset_append_left _ _
      | finalizing n rest fault =>
          cases rest with
          | nil =>
              cases fault with
              | none =>
                  cases hclear
                  cases hnext
                  exact List.subset_append_left _ _
              | some fault =>
                  cases hclear
                  cases hnext
          | cons entry rest =>
              cases hclear
              cases hdrop : entry.onDrop? <;>
              · rw [hdrop] at hnext
                cases hnext
                exact List.subset_append_left _ _
      | broken =>
          cases hclear
          cases hnext
  | @stopping _ _ _ p _ _ _ hpush =>
      cases p with
      | adding entry phase =>
          obtain rfl := hproper.2 entry rfl
          obtain ⟨⟨c₁, progress⟩, hvisit, heq⟩ := Option.map_eq_some_iff.mp hpush
          cases heq
          obtain ⟨rfl, -, rfl⟩ | ⟨again, rfl, -, rfl⟩ | ⟨answer, rfl, -, rfl⟩ :=
            Visit.plain_cases hvisit hproper.1 <;> cases hnext
          · exact List.subset_append_left _ _
          · exact List.Subset.refl _
          · exact List.subset_append_left _ _
      | notifying | hooking =>
          cases hpush
          cases hnext
          exact List.subset_append_left _ _
      | ending _ => exact hplain.elim
  | cleared _ | stayed _ | parted _ | joined _ | again _ =>
      cases hnext
      exact List.subset_append_left _ _
  | @counting _ _ _ _ _ _ r' _ =>
      cases r' <;> cases hnext <;> exact List.subset_append_left _ _
  | reported _ _ | unreported _ => cases hnext

/-- A teardown queues the last entry in one step, with the entry. -/
theorem queued_of_turn {d : Teardown κ V E} {r : Turn κ (Teardown κ V E) (Except Failure Unit)}
    (h : Turned t choice s d s' events r) (hproper : d.stage.IsProper)
    (hqueued : ∃ event ∈ events, event.landmark? = some .queued) :
    d.stage.stops = true ∧ .cleared ∈ d.passed ∧
      s'.pending.value = s.pending.value ++ [.stop] := by
  obtain ⟨event, hevent, hlandmark⟩ := hqueued
  cases h with
  | claimed | closed | joined => cases hevent
  | @closing phase phase' _ _ _ =>
      cases hanswer : Visit.answer? phase (.on phase') <;> rw [hanswer] at hevent
      · cases hevent
      · obtain rfl := List.mem_singleton.mp hevent
        cases hlandmark
  | clearing _ hclear =>
      rcases clear_cases ν hclear with ⟨-, hevents⟩ | ⟨-, hevents, -⟩ <;> rw [hevents] at hevent
      · cases hevent
      · obtain rfl := List.mem_singleton.mp hevent
        cases hlandmark
  | cleared n _ hevents =>
      obtain rfl := hevents event hevent
      cases hlandmark
  | stopping hstage hpush =>
      rw [hstage] at hproper
      rcases stop_cases ν hpush hproper.2 with ⟨-, hevents⟩ | ⟨hahead, hvalue, -⟩
      · rw [hevents] at hevent
        cases hevent
      · have hrests : d.rests = false := by rw [rests, hstage]
        rw [passed, hrests, hstage, Stage.stops, hahead]
        refine ⟨rfl, ?_, hvalue⟩
        rw [if_neg Bool.false_ne_true, Stage.passed, hahead]
        exact List.mem_cons_of_mem _ (List.mem_singleton_self _)
  | rested _ hevents _ _ _ =>
      obtain rfl | ⟨failure, rfl⟩ := hevents event hevent <;> cases hlandmark
  | counting _ _ hevents =>
      obtain ⟨undelivered, rfl⟩ := hevents event hevent
      cases hlandmark

/-- Once the last entry is queued, a teardown leaves alone what is pending. -/
theorem pending_of_queued {d : Teardown κ V E} {r : Turn κ (Teardown κ V E) (Except Failure Unit)}
    {history : List (Tid × Event V E ν)} (h : Turned t choice s d s' events r)
    (hproper : d.stage.IsProper) (hd : Promise d s history) (hcleared : Passed .cleared history)
    (hqueued : Passed .queued history) : s'.pending.value = s.pending.value := by
  cases h with
  | clearing hstage hclear =>
      obtain ⟨hvalue, -⟩ | ⟨again, rfl, -, -, -⟩ := Channel.Clear.marks_of_turn hclear
      · exact hvalue
      · exact absurd hcleared (hd.clears (by rw [hstage]; rfl))
  | stopping hstage hpush =>
      rw [hstage] at hproper
      rcases stop_cases ν hpush hproper.2 with ⟨hvalue, -⟩ | ⟨hahead, -, -⟩
      · exact hvalue
      · exact absurd hqueued (hd.stops (by rw [hstage, Stage.stops, hahead]; rfl))
  | claimed | closing | closed | cleared | rested | joined | counting => rfl

/-- A teardown at rest on the worker's thread changes nothing and notes nothing. -/
theorem idle_of_rests {d : Teardown κ V E} {r : Turn κ (Teardown κ V E) (Except Failure Unit)}
    (h : d.turn workerThread choice s = some (s', events, r))
    (hplain : d.stage.IsPlain workerThread) (hrests : d.rests = true)
    (hclaimed : s.joinable = false) : s' = s ∧ events = [] := by
  cases stepped_of_turn h with
  | claimed hjoinable => cases hclaimed.symm.trans hjoinable
  | unclaimed _ | again _ => exact ⟨rfl, rfl⟩
  | reported _ _ | unreported _ =>
      obtain rfl := hplain rfl
      exact ⟨rfl, rfl⟩
  | closing _ | closed _ | closeFailed _ | clearing _ | cleared _ | stopping _ | stayed _ | parted _
  | joined _ | counting _ => cases hrests

end Teardown

/-! ### Scenes -/

section Scenes

variable {v v' : View κ V E ν}

/-- A teardown of a scene is in a proper stage. -/
theorem isProper_of_tearing (h : Scene.Reach (library plan) opening v) {d : Teardown κ V E}
    (hd : d ∈ picks Part.tearing? (v.calls u).all) : d.stage.IsProper := by
  obtain ⟨call, hcall, hpart⟩ := List.mem_filterMap.mp hd
  have hproper := (isSound_of_opening h u call hcall).proper
  rw [eq_tearing_of_tearing? hpart] at hproper
  exact hproper

/-- **The last entry stays.** Once the pending channel has been cleared and the last entry queued,
only the worker touches what is pending. -/
theorem pending_of_moved (hv : Scene.Reach (library plan) opening v) (h : Moved plan t v v')
    (hcleared : Passed .cleared v.history) (hqueued : Passed .queued v.history)
    (hother : ∀ w, (v.calls t).active ≠ some (.work w)) :
    v'.shared.pending.value = v.shared.pending.value := by
  cases h with
  | still | noted _ _ | began _ _ | resumed _ _ => rfl
  | @turned call rest choice s' events r hactive hsound hturn hlive =>
      have horder := orderly_of_reach hv
      obtain ⟨u, d, hclosing⟩ := horder.closing
      have hfound := horder.gated.found t call (by rw [hactive])
      have hproper := hsound.proper
      cases hpart : call.part with
      | scheduling stage =>
          obtain ⟨r', hstage, -⟩ := turn_scheduling hpart hturn
          rw [hpart] at hproper hfound
          rcases Schedule.pending_of_turn (Schedule.turned_of_turn hstage) hproper with
            ⟨hvalue, -⟩ | ⟨ticket, task, hahead, -, -⟩
          · exact hvalue
          · have hopen := hfound (by rw [Part.ahead, hahead]; exact Option.some_ne_none _)
            rw [hclosing.kept.shut (.inr (.inl hcleared))] at hopen
            cases hopen
      | reading phase =>
          obtain ⟨intake, progress, -, rfl, -, -⟩ := turn_reading hpart hturn
          rfl
      | tearing d₀ =>
          obtain ⟨r', hstep, -⟩ := turn_tearing hpart hturn
          rw [hpart] at hproper
          obtain ⟨-, rfl, -⟩ := hclosing.sole.eq_of_active (by rw [hactive]; rfl)
            (show call.part.tearing? = some d₀ by rw [hpart]; rfl)
          exact Teardown.pending_of_queued (Teardown.turned_of_turn hstep) hproper
            (hclosing.promise d₀ rfl) hcleared hqueued
      | working w =>
          refine absurd ?_ (hother w)
          rw [hactive, eq_work_of_working? (show call.part.working? = some w by rw [hpart]; rfl)]
      | other =>
          obtain ⟨haside, -, -⟩ | ⟨-, rfl, -⟩ := turn_other hpart hsound.opens hturn
          · exact haside.pending_eq
          · rfl

/-- What the stage of a teardown by thread `u` says that has been done. -/
structure Teardown.Done (u : Tid) (d : Teardown κ V E) (v : View κ V E ν) : Prop where
  passed : ∀ x ∈ d.passed, Passed x v.history
  /-- On the worker's own thread, nothing but the last entry is pending once that is queued. -/
  last : u = workerThread → .queued ∈ d.passed → v.shared.pending.value = [.stop]

/-- **What has been done, one step.** -/
theorem done_of_moved (hv : Scene.Reach (library plan) opening v) (h : Moved plan t v v')
    (hlater : ∃ later, v'.history = v.history ++ later)
    (hdone : ∀ d ∈ picks Part.tearing? (v.calls u).all, d.Done u v) :
    ∀ d ∈ picks Part.tearing? (v'.calls u).all, d.Done u v' := by
  intro d' hd'
  have horder := orderly_of_reach hv
  obtain ⟨later, hlater⟩ := hlater
  have hkeeps : ∀ x, Passed x v.history → Passed x v'.history := by
    intro x hx
    rw [hlater]
    exact hx.later later
  -- on the worker's thread there is no step of the worker's above a teardown
  have hlast : ∀ d ∈ picks Part.tearing? (v.calls u).all, u = workerThread →
      .queued ∈ d.passed → v'.shared.pending.value = [.stop] := by
    rintro d hd rfl hqueued
    refine (pending_of_moved hv h ((hdone d hd).passed _ ?_) ((hdone d hd).passed _ hqueued)
      fun w hactive => ?_).trans ((hdone d hd).last rfl hqueued)
    · exact Teardown.mem_passed_of_queued hqueued
    · obtain ⟨w₀, hstaff⟩ := horder.staff
      have hall : (v.calls t).all = .work w :: (v.calls t).waiting := by
        rw [Calls.all, hactive]
        rfl
      obtain ⟨rfl, -, hnil⟩ := hstaff.eq_nil_of_work hall
      rw [hall, hnil] at hd
      cases hd
  cases tearingMoved_of_moved h horder hd' with
  | stood hd =>
      exact ⟨fun x hx => hkeeps x ((hdone d' hd).passed x hx), hlast d' hd⟩
  | resumed d result hd heq hshared =>
      subst heq
      refine ⟨fun x hx => ?_, ?_⟩
      · rw [Teardown.passed_resume] at hx
        exact hkeeps x ((hdone d hd).passed x hx)
      · rw [Teardown.passed_resume]
        exact hlast d hd
  | began reporting heq =>
      subst heq
      exact ⟨fun x hx => absurd hx List.not_mem_nil, fun _ hx => absurd hx List.not_mem_nil⟩
  | @turned choice events r d ht hd hturn hnext hhistory =>
      subst ht
      obtain ⟨u₀, x, hclosing⟩ := horder.closing
      obtain ⟨rfl, rfl⟩ := hclosing.sole.eq_of_mem hd
      have hproper := isProper_of_tearing hv hd
      have hpassed := Teardown.passed_of_turn hturn (told_of_reach hv u d hd).plain hproper
        (hclosing.rested d rfl) hnext
      refine ⟨fun x hx => ?_, fun hu hqueued => ?_⟩
      · rcases List.mem_append.mp (hpassed hx) with hx | hx
        · exact hkeeps x ((hdone d hd).passed x hx)
        · rw [hhistory]
          exact passed_append.mpr (.inr (List.mem_filterMap.mp hx))
      · by_cases hbefore : .queued ∈ d.passed
        · exact hlast d hd hu hbefore
        · -- this is the step that queues it
          have hevent := (List.mem_append.mp (hpassed hqueued)).resolve_left hbefore
          obtain ⟨hstops, hcleared, hvalue⟩ := Teardown.queued_of_turn
            (Teardown.turned_of_turn hturn) hproper (List.mem_filterMap.mp hevent)
          have hfresh := (hclosing.promise d rfl).stops hstops
          have hnone : Entry.stop ∉ v.shared.pending.value := fun hstop =>
            hfresh (hclosing.kept.queued hstop)
          have hlength := length_ticketsOf hnone
          rw [hclosing.kept.cleared ((hdone d hd).passed _ hcleared)] at hlength
          rw [hvalue, List.eq_nil_of_length_eq_zero hlength.symm, List.nil_append]

/-- **What has been done.** In every reachable scene, what the stages of teardowns say has been
done. -/
theorem done_of_reach (h : Scene.Reach (library plan) opening v) (u : Tid) :
    ∀ d ∈ picks Part.tearing? (v.calls u).all, d.Done u v :=
  h.invariant (P := fun v => ∀ d ∈ picks Part.tearing? (v.calls u).all, d.Done u v)
    (fun d hd => by
      obtain ⟨call, hcall, hpart⟩ := List.mem_filterMap.mp hd
      rw [eq_of_mem_opening hcall] at hpart
      cases hpart)
    fun _ _ _ hs hdone hstep =>
      done_of_moved hs (moved_of_reach hs hstep)
        (hstep.exists_events.imp' (List.map (Prod.mk _)) fun _ heq => heq) hdone

end Scenes

/-! ### All runs -/

section Runs

variable {next : κ → Move κ ω (Request κ V E) Answer (Except E V) ν} {world : ω} {codes : List κ}
  {s s' : State κ ω (Pipeline κ V E) (Call κ V E) Answer (Event V E ν)}
  {frames : Stack κ (Call κ V E) Answer} {d : Teardown κ V E}

/-- Whether a call is a teardown that is as near to its end. -/
def Call.TearsDown (bound : Lex (Nat × Nat)) (call : Call κ V E) : Prop :=
  ∃ d, call = .teardown d ∧ d.toGo ≤ bound

/-- Whether a teardown on the worker's thread comes back with success in the step from `s` to `s'`:
it has left nothing pending but the entry that ends the worker. -/
structure Freed (frames : Stack κ (Call κ V E) Answer)
    (s s' : State κ ω (Pipeline κ V E) (Call κ V E) Answer (Event V E ν)) : Prop where
  called : ∃ d, s.stack workerThread = .call (.teardown d) :: frames
  answered : s'.stack workerThread = Machine.finishCall (.ok (.stopped (.ok ()))) frames
  passed : ∀ x, x ≠ .stopped → Passed x s'.history
  last : s'.shared.pending.value = [.stop]

/-- What a teardown on the worker's thread comes back with in a step from `s` to `s'`. -/
inductive Parted (frames : Stack κ (Call κ V E) Answer)
    (s s' : State κ ω (Pipeline κ V E) (Call κ V E) Answer (Event V E ν)) : Prop where
  | freed : Freed frames s s' → Parted frames s s'
  /-- The destructor has failed of a job that it has discarded. -/
  | failed (d : Teardown κ V E) (n : Nat) (fault : Fault) :
      s.stack workerThread = .call (.teardown d) :: frames →
      d.stage = .clearing (.finalizing n [] (some fault)) →
      s'.stack workerThread = Machine.finishCall (.error fault) frames →
      Passed .closed s'.history → Passed .cleared s'.history → Parted frames s s'

/-- **A teardown on the worker's thread, a step of its own.** It comes back, or is nearer to
that. -/
theorem of_own_parting (h : (machine plan next).Reach (start world codes) s)
    (hstack : s.stack workerThread = .call (.teardown d) :: frames)
    (hstep : (machine plan next).step workerThread choice s = some s')
    (hlive : s'.aborted = false) :
    Parted frames s s' ∨ ∃ bound < d.toGo,
      Machine.Pursues workerThread frames (Call.TearsDown bound) s' := by
  obtain ⟨v, hv, hshows⟩ := exists_shows h
  have hmem := mem_tearing hshows (Machine.stepped_of_step hstep).1 hstack
  obtain ⟨-, shared, events, r, hturn, haborted, hafter, hshows'⟩ :=
    hshows.turned (machine_fits plan next) hstack hstep
  obtain ⟨r', hturn', rfl⟩ := exists_of_nest hturn
  have htold := told_of_reach hv workerThread d hmem
  have hdone := done_of_reach hv workerThread d hmem
  have hpassed : ∀ x ∈ d.passed, Passed x s'.history := by
    intro x hx
    rw [← hshows'.history_eq]
    exact (hdone.passed x hx).later _
  obtain ⟨u, x, hclosing⟩ := (orderly_of_reach hv).closing
  obtain ⟨rfl, rfl⟩ := hclosing.sole.eq_of_mem hmem
  cases Teardown.onward_of_turn hturn' htold.plain (hclosing.rested d rfl) with
  | nearer d' hnext _ _ hless _ _ =>
      refine .inr ⟨_, hless, .of_next (.teardown d') hafter ?_ ⟨d', rfl, le_refl _⟩⟩
      cases r' <;> cases hnext <;> rfl
  | answered report hsaid hquiet hrests =>
      have hpast : ∀ x, x ≠ .stopped → x ∈ d.passed := fun x hx =>
        Teardown.mem_passed_of_rests hrests hx
      obtain rfl : report = .ok () := by
        cases hreporting : d.reporting with
        | false => exact hquiet hreporting
        | true => exact (Option.some.inj (htold.told report (hsaid hreporting))).symm
      refine .inl (.freed ⟨⟨d, hstack⟩, hafter, fun x hx => hpassed x (hpast x hx), ?_⟩)
      rw [← hshows'.shared_eq]
      exact (Teardown.pending_of_queued (Teardown.turned_of_turn hturn')
        (isProper_of_tearing hv hmem) (hclosing.promise d rfl)
        (hdone.passed _ (hpast _ nofun)) (hdone.passed _ (hpast _ nofun))).trans
        (hdone.last rfl (hpast _ nofun))
  | failed n fault hstage =>
      have hpast : d.passed = [.closed, .cleared] := by
        rw [Teardown.passed, Teardown.rests, hstage]
        rfl
      exact .inl (.failed d n fault hstack hstage hafter (hpassed _ (by simp [hpast]))
        (hpassed _ (by simp [hpast])))
  | broken _ =>
      rw [haborted.mpr rfl] at hlive
      cases hlive

/-- **What a teardown on the worker's thread comes back with.** In every later state of the run it
has come back, or it is on its way and no further from that. -/
theorem parted_since (h : (machine plan next).Reach (start world codes) s)
    (hstack : s.stack workerThread = .call (.teardown d) :: frames)
    (h' : (machine plan next).Reach s s') (hlive : s'.aborted = false) :
    (∃ s₁ choice s₂, (machine plan next).Reach s s₁ ∧
        (machine plan next).step workerThread choice s₁ = some s₂ ∧
        (machine plan next).Reach s₂ s' ∧ Parted frames s₁ s₂) ∨
      Machine.Pursues workerThread frames (Call.TearsDown d.toGo) s' := by
  refine Machine.Pursues.later (m := machine plan next) ?_ ?_ h
    (.itself _ hstack ⟨d, rfl, le_refl _⟩) h' hlive
  · rintro s₁ call choice s₂ h₁ hstack₁ ⟨d₁, rfl, hle⟩ hstep hlive₂
    rcases of_own_parting h₁ hstack₁ hstep hlive₂ with hparted | ⟨bound, hlt, hpursues⟩
    · exact .inl hparted
    · refine .inr (hpursues.mono ?_)
      rintro call ⟨d₂, rfl, hle₂⟩
      exact ⟨d₂, rfl, hle₂.trans (hlt.le.trans hle)⟩
  · rintro call result ⟨d₁, rfl, hle⟩
    exact ⟨_, rfl, (d₁.toGo_resume_le result).trans hle⟩

/-- A teardown that is the topmost layer of the worker's thread can make a step, or waits for a lock
that another thread owns. -/
theorem moves_or_waits_of_parting (h : (machine plan next).Reach (start world codes) s)
    (hlive : s.aborted = false) (hstack : s.stack workerThread = .call (.teardown d) :: frames) :
    (∀ choice, ((machine plan next).step workerThread choice s).isSome = true) ∨
      ∃ u, u ≠ workerThread ∧ locks.WaitsOn (machine plan next) s workerThread u := by
  rcases moves_or_waits_of_tearing h hlive hstack with
    hmoves | ⟨l, hwaits⟩ | ⟨n, hstage, -⟩
  · exact .inl hmoves
  · exact .inr (exists_waitsOn h hwaits)
  · obtain ⟨v, hv, hshows⟩ := exists_shows h
    have hplain := (told_of_reach hv workerThread d (mem_tearing hshows hlive hstack)).plain
    rw [hstage] at hplain
    exact absurd rfl hplain

end Runs

end Offload.Pipeline
