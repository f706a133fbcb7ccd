import Offload.Proofs.Pipeline.Borrows

/-!
# The account that a teardown keeps

A teardown reports two numbers, which it reads at different moments: how many tasks it has
discarded, when it has cleared the pending channel, and how many results were never taken out, when
it has joined the worker's thread. From each of these moments on its stage carries the number, and
what the number is of does not change any more. It reports once, unless it runs on the worker's own
thread, and only then is it through.

## Main results

* `account_of_tearing`: the account, kept by the teardown's own steps.
* `final_of_tearing`: what has been reported is what is there, and stays so.
-/

namespace Offload.Pipeline

variable {κ V E ν : Type} {plan : Plan κ} {t u : Tid} {choice : Choice} {s s' : Pipeline κ V E}
  {events : List (Event V E ν)} {history : List (Tid × Event V E ν)}

/-! ### Discarded tasks -/

/-- Whether the pending channel has been cleared, of so many tasks. -/
def Discarded (n : Nat) (history : List (Tid × Event V E ν)) : Prop :=
  Passed .cleared history ∧ (reached .discarded history).length = n

/-- Nothing is discarded in a step that does not clear. -/
theorem discarded_of_ne (h : ∀ event ∈ events, event.landmark? ≠ some .cleared) :
    ticketsAt .discarded events = [] := by
  rw [ticketsAt, List.flatMap_eq_nil_iff]
  intro event hevent
  cases event with
  | discarded tickets => exact absurd rfl (h _ hevent)
  | _ => rfl

theorem Discarded.append {n : Nat} (h : Discarded n history)
    (hnone : ticketsAt .discarded events = []) :
    Discarded n (history ++ events.map (Prod.mk u)) := by
  refine ⟨h.1.later _, ?_⟩
  rw [reached_append, hnone, List.append_nil]
  exact h.2

/-- Entries that are all tasks are as many as their tickets. -/
theorem length_ticketsOf {entries : List (Entry κ V E)} (h : .stop ∉ entries) :
    (ticketsOf entries).length = entries.length := by
  induction entries with
  | nil => rfl
  | cons entry entries ih =>
      rw [List.mem_cons, not_or] at h
      cases entry with
      | run ticket task => exact congrArg Nat.succ (ih h.2)
      | stop => exact absurd rfl h.1

/-! ### What stages carry -/

/-- Whether a clear carries the number of the tasks that it has removed, if it has. -/
def ClearCarries (history : List (Tid × Event V E ν)) : Channel.Clear (Entry κ V E) → Prop
  | .taking phase => phase.IsPlain ∧ ∀ entries, phase.held = some entries →
      Discarded entries.length history
  | .finalizing n _ _ => Discarded n history
  | .broken => True

/-- Whether a count carries the number of the results that are in the finished channel, if it has
counted them. -/
def CountCarries (s : Pipeline κ V E) (phase : Phase Nat) : Prop :=
  phase.IsPlain ∧ ∀ k, phase.held = some k → s.finished.value.length = k

namespace Teardown.Stage

/-- Whether a stage of a teardown carries the numbers that are known then. -/
def Carries (s : Pipeline κ V E) (history : List (Tid × Event V E ν)) : Stage κ V E → Prop
  | .claiming | .closing _ | .ending _ => True
  | .clearing c => ClearCarries history c
  | .cleared n | .stopping n _ | .parting n | .joining n => Discarded n history
  | .counting n _ phase => Discarded n history ∧ CountCarries s phase

/-- Whether a teardown at this stage has found that it is not on the worker's own thread. -/
def isAway : Stage κ V E → Bool
  | .joining _ | .counting _ _ _ => true
  | _ => false

/-- A stage carries what it did as long as nothing is discarded and, once the worker's thread has
been joined, as many results are in the finished channel. -/
theorem Carries.later {stage : Stage κ V E} (h : stage.Carries s history)
    (hnone : ticketsAt .discarded events = [])
    (hfinished : stage.hasJoined = true → s'.finished.value.length = s.finished.value.length) :
    stage.Carries s' (history ++ events.map (Prod.mk u)) := by
  cases stage with
  | claiming | closing _ | ending _ => trivial
  | clearing c =>
      cases c with
      | taking phase => exact ⟨h.1, fun entries hheld => (h.2 entries hheld).append hnone⟩
      | finalizing n rest fault => exact Discarded.append h hnone
      | broken => trivial
  | cleared n | stopping n p | parting n | joining n => exact Discarded.append h hnone
  | counting n outcome phase =>
      refine ⟨h.1.append hnone, h.2.1, fun k hheld => ?_⟩
      rw [hfinished rfl]
      exact h.2.2 k hheld

end Teardown.Stage

/-- A clear discards what is pending in one step, and carries its number from then on. -/
theorem carries_of_clear {c : Channel.Clear (Entry κ V E)} {pending : Channel (Entry κ V E)}
    {marks : List (Channel.Mark (Entry κ V E))} {r' : Turn κ (Channel.Clear (Entry κ V E)) Nat}
    (h : c.turn Entry.onDrop? t choice s.pending = some (pending, marks, r'))
    (hstop : .stop ∉ s.pending.value)
    (hfresh : (Teardown.Stage.clearing c : Teardown.Stage κ V E).clears = true →
      ¬ Passed .cleared history)
    (hc : ClearCarries history c) :
    (∀ c', r'.next? = some c' →
      ClearCarries (history ++ (marks.flatMap pendingEvent).map (Prod.mk u)) c') ∧
      ∀ n, r' = .ret n → Discarded n (history ++ (marks.flatMap pendingEvent).map (Prod.mk u)) := by
  cases c with
  | taking phase =>
      obtain ⟨hplain, hheld⟩ := hc
      obtain ⟨⟨c₁, progress⟩, hvisit, heq⟩ := Option.map_eq_some_iff.mp h
      cases heq
      rcases Visit.plain_cases hvisit hplain with
        ⟨rfl, -, rfl⟩ | ⟨again, rfl, -, rfl⟩ | ⟨entries, rfl, -, rfl⟩
      · refine ⟨?_, nofun⟩
        rintro c' ⟨⟩
        exact ⟨trivial, nofun⟩
      · -- this is the step that clears
        refine ⟨?_, nofun⟩
        rintro c' ⟨⟩
        refine ⟨trivial, ?_⟩
        rintro entries ⟨⟩
        refine ⟨passed_append.mpr (.inr ⟨_, List.mem_singleton_self _, rfl⟩), ?_⟩
        have htickets : ticketsAt .discarded
            ([.discarded (ticketsOf s.pending.value)] : List (Event V E ν)) =
            ticketsOf s.pending.value := List.append_nil _
        rw [reached_append, discarded_eq_nil (hfresh rfl), List.nil_append]
        exact (congrArg List.length htickets).trans (length_ticketsOf hstop)
      · refine ⟨?_, nofun⟩
        rintro c' ⟨⟩
        exact (hheld entries rfl).append rfl
  | finalizing n rest fault =>
      cases rest with
      | nil =>
          cases fault with
          | none =>
              cases h
              refine ⟨nofun, ?_⟩
              rintro n' ⟨⟩
              exact Discarded.append hc rfl
          | some fault =>
              cases h
              exact ⟨nofun, nofun⟩
      | cons entry rest =>
          cases h
          refine ⟨fun c' hnext => ?_, fun n' hret => ?_⟩
          · cases hcode : entry.onDrop? <;>
            · rw [hcode] at hnext
              cases hnext
              exact Discarded.append hc rfl
          · cases hcode : entry.onDrop? <;>
            · rw [hcode] at hret
              cases hret
  | broken =>
      cases h
      exact ⟨nofun, nofun⟩

/-- A count reads the number of results in one step, and carries it from then on. -/
theorem carries_of_count {phase : Phase Nat} {finished : Channel (Finished κ V E)}
    {r' : Turn κ (Phase Nat) Nat}
    (h : Channel.sizeTurn t choice s.finished phase = some (finished, r'))
    (hphase : CountCarries s phase) :
    (∃ phase', r' = .stay phase' ∧ CountCarries { s with finished := finished } phase') ∨
      ∃ k, r' = .ret k ∧ s.finished.value.length = k := by
  obtain ⟨hplain, hheld⟩ := hphase
  obtain ⟨⟨c₁, progress⟩, hvisit, heq⟩ := Option.map_eq_some_iff.mp h
  cases heq
  rcases Visit.plain_cases hvisit hplain with
    ⟨rfl, -, rfl⟩ | ⟨again, rfl, rfl, rfl⟩ | ⟨k, rfl, -, rfl⟩
  · exact .inl ⟨_, rfl, trivial, nofun⟩
  · refine .inl ⟨_, rfl, trivial, ?_⟩
    rintro k ⟨⟩
    rfl
  · exact .inr ⟨k, rfl, hheld k rfl⟩

/-! ### The account -/

/-- The account that a teardown `d` by thread `t` keeps. -/
structure Teardown.Account (t : Tid) (d : Teardown κ V E) (s : Pipeline κ V E)
    (history : List (Tid × Event V E ν)) : Prop where
  carries : d.stage.Carries s history
  away : d.stage.isAway = true → t ≠ workerThread
  unreported : d.rests = false → ¬ Passed .stopped history
  reported : d.rests = true → t = workerThread ∨ ∃ n k, (t, .notice (.stopped n k)) ∈ history

/-- What has been reported is what there is: one report at most, from a thread other than the
worker's, of the tasks that were discarded and of the results that are in the finished channel. -/
structure Final (s : Pipeline κ V E) (history : List (Tid × Event V E ν)) : Prop where
  once : passes .stopped history ≤ 1
  reports : ∀ t n k, (t, .notice (.stopped n k)) ∈ history →
    t ≠ workerThread ∧ Discarded n history ∧ s.finished.value.length = k

theorem eq_stopped_of_landmark {event : Event V E ν} (h : event.landmark? = some .stopped) :
    ∃ n k, event = .notice (.stopped n k) := by
  cases event with
  | notice notice =>
      cases notice with
      | stopped n k => exact ⟨n, k, rfl⟩
      | _ => cases h
  | _ => cases h

/-- What has been reported was cleared before. -/
theorem Final.cleared (h : Final s history) (hstopped : Passed .stopped history) :
    Passed .cleared history := by
  obtain ⟨⟨t, event⟩, hevent, hlandmark⟩ := hstopped
  obtain ⟨n, k, rfl⟩ := eq_stopped_of_landmark hlandmark
  exact (h.reports t n k hevent).2.1.1

/-- A step that reports nothing keeps what has been reported. -/
theorem Final.later (h : Final s history)
    (hne : ∀ event ∈ events, event.landmark? ≠ some .stopped)
    (hnone : Passed .cleared history → ticketsAt .discarded events = [])
    (hfinished : Passed .stopped history → s'.finished.value.length = s.finished.value.length) :
    Final s' (history ++ events.map (Prod.mk u)) := by
  refine ⟨?_, fun t n k hevent => ?_⟩
  · rw [passes_append_of_ne hne]
    exact h.once
  · rcases List.mem_append.mp hevent with hevent | hevent
    · obtain ⟨ht, hdiscarded, hlength⟩ := h.reports t n k hevent
      refine ⟨ht, hdiscarded.append (hnone hdiscarded.1), ?_⟩
      rw [hfinished ⟨_, hevent, rfl⟩]
      exact hlength
    · obtain ⟨event, hmem, heq⟩ := List.mem_map.mp hevent
      cases heq
      exact absurd rfl (hne _ hmem)

/-- The first report. -/
theorem Final.stopped {n k : Nat} (hfresh : ¬ Passed .stopped history) (ht : t ≠ workerThread)
    (hdiscarded : Discarded n history) (hlength : s.finished.value.length = k) :
    Final s (history ++ ([.notice (.stopped n k)] : List (Event V E ν)).map (Prod.mk t)) := by
  refine ⟨?_, fun t' n' k' hevent => ?_⟩
  · rw [passes_append, passes_eq_zero.mpr hfresh]
    simp [Event.landmark?]
  · rcases List.mem_append.mp hevent with hevent | hevent
    · exact absurd ⟨_, hevent, rfl⟩ hfresh
    · cases List.mem_singleton.mp hevent
      exact ⟨ht, hdiscarded.append rfl, hlength⟩

/-- What the stage of a teardown carries, one step of the teardown. -/
theorem carries_of_tearing {d : Teardown κ V E}
    {r' : Turn κ (Teardown κ V E) (Except Failure Unit)}
    (h : d.turn t choice s = some (s', events, r')) (hproper : d.stage.IsProper)
    (hd : Promise d s history) (hs : Kept s history) (hcarries : d.stage.Carries s history)
    (haway : d.stage.isAway = true → t ≠ workerThread) :
    ∀ d', r'.next? = some d' → d'.stage.Carries s' (history ++ events.map (Prod.mk t)) ∧
      (d'.stage.isAway = true → t ≠ workerThread) := by
  intro d' hnext
  cases Teardown.stepped_of_turn h with
  | claimed _ | unclaimed _ | closing _ | stayed _ | again _ =>
      cases hnext
      exact ⟨trivial, by rintro ⟨⟩⟩
  | closed _ =>
      cases hnext
      exact ⟨⟨trivial, by rintro _ ⟨⟩⟩, by rintro ⟨⟩⟩
  | closeFailed _ | reported _ _ | unreported _ => cases hnext
  | @clearing _ _ _ _ _ r'' hclear =>
      have hstop : .stop ∉ s.pending.value := fun hmem => hd.stops rfl (hs.queued hmem)
      obtain ⟨hcarries', hdiscarded⟩ := carries_of_clear hclear hstop hd.clears hcarries
      cases r'' with
      | stay c' | run code c' =>
          cases hnext
          exact ⟨hcarries' c' rfl, by rintro ⟨⟩⟩
      | ret n =>
          cases hnext
          exact ⟨hdiscarded n rfl, by rintro ⟨⟩⟩
      | fail _ | abort => cases hnext
  | cleared n =>
      cases hnext
      refine ⟨Discarded.append hcarries ?_, by rintro ⟨⟩⟩
      split <;> rfl
  | @stopping _ _ n _ _ marks r'' hpush =>
      have hdiscarded : Discarded n
          (history ++ (marks.flatMap pendingEvent : List (Event V E ν)).map (Prod.mk t)) := by
        refine Discarded.append hcarries ?_
        rcases Teardown.stop_cases ν hpush hproper.2 with ⟨-, hevents⟩ | ⟨-, -, hevents⟩ <;>
        · rw [hevents]
          rfl
      cases r'' with
      | stay _ | run _ _ | ret _ =>
          cases hnext
          exact ⟨hdiscarded, by rintro ⟨⟩⟩
      | fail _ | abort => cases hnext
  | parted hother =>
      cases hnext
      exact ⟨Discarded.append hcarries rfl, fun _ => hother⟩
  | joined _ =>
      cases hnext
      exact ⟨⟨Discarded.append hcarries rfl, trivial, by rintro _ ⟨⟩⟩, fun _ => haway rfl⟩
  | counting hsize =>
      rcases carries_of_count hsize hcarries.2 with ⟨phase', rfl, hphase'⟩ | ⟨k, rfl, -⟩
      · cases hnext
        exact ⟨⟨hcarries.1.append rfl, hphase'⟩, fun _ => haway rfl⟩
      · cases hnext
        exact ⟨trivial, by rintro ⟨⟩⟩

/-- Only a teardown that counts reports. -/
theorem eq_counting_of_stopped {d : Teardown κ V E}
    {r' : Turn κ (Teardown κ V E) (Except Failure Unit)}
    (h : Teardown.Turned t choice s d s' events r') (hproper : d.stage.IsProper)
    {event : Event V E ν} (hevent : event ∈ events)
    (hlandmark : event.landmark? = some .stopped) :
    ∃ n outcome phase, d.stage = .counting n outcome phase := by
  obtain ⟨n, k, rfl⟩ := eq_stopped_of_landmark hlandmark
  cases h with
  | claimed | closed | joined => cases hevent
  | @closing phase phase' _ _ _ =>
      cases hanswer : Visit.answer? phase (.on phase') <;> rw [hanswer] at hevent
      · cases hevent
      · cases List.mem_singleton.mp hevent
  | clearing _ hclear =>
      rcases Teardown.clear_cases ν hclear with ⟨-, hnil⟩ | ⟨-, hone, -⟩
      · rw [hnil] at hevent
        cases hevent
      · rw [hone] at hevent
        cases List.mem_singleton.mp hevent
  | cleared _ _ hcleared => cases hcleared _ hevent
  | stopping hstage hpush =>
      rw [hstage] at hproper
      rcases Teardown.stop_cases ν hpush hproper.2 with ⟨-, hnil⟩ | ⟨-, -, hone⟩
      · rw [hnil] at hevent
        cases hevent
      · rw [hone] at hevent
        cases List.mem_singleton.mp hevent
  | rested _ hrested _ _ _ =>
      rcases hrested _ hevent with heq | ⟨failure, heq⟩ <;> cases heq
  | @counting n outcome phase _ _ _ hstage _ _ => exact ⟨n, outcome, phase, hstage⟩

/-- **The account, one step of the teardown.** -/
theorem account_of_tearing {d : Teardown κ V E}
    {r' : Turn κ (Teardown κ V E) (Except Failure Unit)}
    (h : d.turn t choice s = some (s', events, r')) (hproper : d.stage.IsProper)
    (hd : Promise d s history) (hs : Kept s history) (hrested : Rested t d s)
    (hfinal : Final s history) (haccount : Teardown.Account t d s history) :
    ∀ d', r'.next? = some d' → Teardown.Account t d' s' (history ++ events.map (Prod.mk t)) := by
  intro d' hnext
  obtain ⟨hcarries, haway⟩ :=
    carries_of_tearing h hproper hd hs haccount.carries haccount.away d' hnext
  have hunreported : d'.rests = false → ¬ Passed .stopped (history ++ events.map (Prod.mk t)) →
      Teardown.Account t d' s' (history ++ events.map (Prod.mk t)) := fun hrests hfresh =>
    ⟨hcarries, haway, fun _ => hfresh, fun h => absurd (hrests.symm.trans h) Bool.false_ne_true⟩
  have hreported : d'.rests = true → (t = workerThread ∨ ∃ n k,
        (t, .notice (.stopped n k)) ∈ history ++ events.map (Prod.mk t)) →
      Teardown.Account t d' s' (history ++ events.map (Prod.mk t)) := fun hrests hreport =>
    ⟨hcarries, haway, fun h => absurd (h.symm.trans hrests) Bool.false_ne_true, fun _ => hreport⟩
  -- between its beginning and its count a teardown has not reported
  have hbusy : d.rests = false → (∀ n outcome phase, d.stage ≠ .counting n outcome phase) →
      d'.rests = false → Teardown.Account t d' s' (history ++ events.map (Prod.mk t)) := by
    intro hrests hstage hrests'
    refine hunreported hrests' ?_
    rw [passed_append_of_ne fun event hevent hlandmark => ?_]
    · exact haccount.unreported hrests
    · obtain ⟨n, outcome, phase, hcounting⟩ :=
        eq_counting_of_stopped (Teardown.turned_of_turn h) hproper hevent hlandmark
      exact hstage n outcome phase hcounting
  cases Teardown.stepped_of_turn h with
  | claimed hjoinable =>
      cases hnext
      refine hunreported rfl ?_
      rw [List.map_nil, List.append_nil]
      exact fun hstopped => (hs.joinable hjoinable).1 (hfinal.cleared hstopped)
  | @unclaimed _ earlier hjoinable =>
      cases hnext
      refine hreported rfl ?_
      rw [List.map_nil, List.append_nil]
      cases earlier with
      | none => exact absurd (hrested.unclaimed rfl rfl) (by simp [hjoinable])
      | some outcome => exact haccount.reported rfl
  | closing _ | closed _ | cleared _ | parted _ | joined _ =>
      cases hnext
      exact hbusy rfl (by rintro _ _ _ ⟨⟩) rfl
  | closeFailed _ | reported _ _ | unreported _ => cases hnext
  | @clearing _ _ _ _ _ r'' _ =>
      cases r'' <;> cases hnext <;> exact hbusy rfl (by rintro _ _ _ ⟨⟩) rfl
  | @stopping _ _ _ _ _ _ r'' _ =>
      cases r'' <;> cases hnext <;> exact hbusy rfl (by rintro _ _ _ ⟨⟩) rfl
  | stayed hown =>
      cases hnext
      exact hreported rfl (.inl hown)
  | @counting _ _ n _ _ _ _ hsize =>
      rcases carries_of_count hsize haccount.carries.2 with ⟨phase', rfl, -⟩ | ⟨k, rfl, -⟩
      · cases hnext
        refine hunreported rfl ?_
        rw [List.map_nil, List.append_nil]
        exact haccount.unreported rfl
      · cases hnext
        exact hreported rfl (.inr ⟨n, k, List.mem_append_right _ (List.mem_singleton_self _)⟩)
  | again _ =>
      cases hnext
      refine hreported rfl ?_
      rw [List.map_nil, List.append_nil]
      exact haccount.reported rfl

/-- A teardown that reports has counted, and reports what it has counted. -/
theorem counting_of_stopped {d : Teardown κ V E}
    {r' : Turn κ (Teardown κ V E) (Except Failure Unit)}
    (h : d.turn t choice s = some (s', events, r')) (hproper : d.stage.IsProper)
    (hcarries : d.stage.Carries s history) {event : Event V E ν} (hevent : event ∈ events)
    (hlandmark : event.landmark? = some .stopped) :
    ∃ n outcome phase k, d.stage = .counting n outcome phase ∧
      events = [.notice (.stopped n k)] ∧ s.finished.value.length = k := by
  obtain ⟨n, outcome, phase, hstage⟩ :=
    eq_counting_of_stopped (Teardown.turned_of_turn h) hproper hevent hlandmark
  rw [hstage] at hcarries
  rw [Teardown.turn, hstage] at h
  obtain ⟨⟨finished, r''⟩, hsize, heq⟩ := Option.map_eq_some_iff.mp h
  cases heq
  rcases carries_of_count hsize hcarries.2 with ⟨phase', rfl, -⟩ | ⟨k, rfl, hlength⟩
  · cases hevent
  · exact ⟨n, outcome, phase, k, hstage, rfl, hlength⟩

/-- **The report, one step of the teardown.** -/
theorem final_of_tearing {d : Teardown κ V E}
    {r' : Turn κ (Teardown κ V E) (Except Failure Unit)}
    (h : d.turn t choice s = some (s', events, r')) (hproper : d.stage.IsProper)
    (hnone : Passed .cleared history → ticketsAt .discarded events = [])
    (hfinal : Final s history) (haccount : Teardown.Account t d s history) :
    Final s' (history ++ events.map (Prod.mk t)) := by
  have hfinished := (Teardown.frame_of_turn (Teardown.turned_of_turn h)).1
  by_cases hstopped : ∃ event ∈ events, event.landmark? = some .stopped
  · obtain ⟨event, hevent, hlandmark⟩ := hstopped
    obtain ⟨n, outcome, phase, k, hstage, rfl, hlength⟩ :=
      counting_of_stopped h hproper haccount.carries hevent hlandmark
    have hcarries := haccount.carries
    rw [hstage] at hcarries
    refine .stopped (haccount.unreported ?_) (haccount.away (by rw [hstage]; rfl)) hcarries.1 ?_
    · rw [Teardown.rests, hstage]
    · rw [hfinished, hlength]
  · refine hfinal.later (fun event hevent hlandmark => hstopped ⟨event, hevent, hlandmark⟩) hnone
      fun _ => ?_
    rw [hfinished]

end Offload.Pipeline
