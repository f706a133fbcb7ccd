import Mathlib.Data.Prod.Lex
import Offload.Proofs.Pipeline.Duty
import Offload.Proofs.Pipeline.Prompt
import Offload.Proofs.Pipeline.Report

/-!
# What a shutdown is going to report

A teardown on a thread other than the worker's joins the worker's thread, and from that moment on it
knows what it is going to report: how that thread has ended. On the worker's own thread it does not
join, and reports success. It passes through its stages in order, those of a shutdown twice, and
runs one destructor for each task that it has discarded, so every step takes it nearer to its end.
On its way it waits for locks only, and for the worker's thread while that is alive and another.

## Main results

* `Teardown.onward_of_turn`: one step of a teardown.
* `told_of_reach`: what a teardown is going to report is how the worker's thread has ended, or
  success on that thread.
-/

namespace Offload.Pipeline

variable {κ ω V E ν : Type} {plan : Plan κ} {t u : Tid} {choice : Choice}

/-! ### Steps of a teardown -/

namespace Teardown

variable {s s' : Pipeline κ V E} {events : List (Event V E ν)}

/-- Whether a teardown by thread `t` is in a stage in which teardowns can be, as far as its way to
its end is concerned: it waits for nothing but locks and for the worker's thread, if that is
another, and what it queues it queues without a fault; on the worker's thread it ends well. -/
def Stage.IsPlain (t : Tid) : Stage κ V E → Prop
  | .closing phase => phase.IsPlain
  | .clearing c => c.IsPlain
  | .stopping _ p => p.Adds
  | .joining _ => t ≠ workerThread
  | .counting _ _ phase => phase.IsPlain ∧ t ≠ workerThread
  | .ending outcome => t = workerThread → outcome = .ok ()
  | .claiming | .cleared _ | .parting _ => True

/-- How many steps a teardown at this stage has to go to its end, but for those that remove
discarded tasks. -/
def Stage.rank : Stage κ V E → Nat
  | .claiming => 20
  | .closing phase => phase.toGo + 16
  | .clearing (.taking phase) => phase.toGo + 12
  | .clearing (.finalizing _ _ _) | .clearing .broken => 12
  | .cleared _ => 11
  | .stopping _ p => p.toGo + 5
  | .parting _ => 5
  | .joining _ => 4
  | .counting _ _ phase => phase.toGo
  | .ending _ => 0

/-- How many discarded tasks are left to remove at this stage. -/
def Stage.left : Stage κ V E → Nat
  | .clearing (.finalizing _ rest _) => rest.length
  | _ => 0

/-- How far a teardown has to go to its end, the steps of both its passes first and then the
discarded tasks; such pairs descend only finitely often. -/
def toGo (d : Teardown κ V E) : Lex (Nat × Nat) :=
  toLex (d.stage.rank + (if d.earlier.isNone then 21 else 0), d.stage.left)

/-- What a teardown is going to report, once it knows. -/
def said? (d : Teardown κ V E) : Option (Except Failure Unit) :=
  d.earlier.or <|
    match d.stage with
    | .counting _ outcome _ | .ending outcome => some outcome
    | _ => none

/-- What a teardown by thread `t` finds about the worker's thread, once it can: how that has ended,
and nothing bad if it is its own. -/
def found? (t : Tid) (health : Health) : Option (Except Failure Unit) :=
  if t = workerThread then some (.ok ()) else verdict? health

theorem found?_of_ne (ht : t ≠ workerThread) (health : Health) :
    found? t health = verdict? health :=
  if_neg ht

/-- A later stage of the same pass is nearer to the end. -/
theorem toGo_lt {reporting reporting' : Bool} {earlier : Option (Except Failure Unit)}
    {stage stage' : Stage κ V E} (h : stage'.rank < stage.rank) :
    (⟨reporting', earlier, stage'⟩ : Teardown κ V E).toGo <
      (⟨reporting, earlier, stage⟩ : Teardown κ V E).toGo :=
  Prod.Lex.toLex_lt_toLex.mpr (.inl (Nat.add_lt_add_right h _))

/-- So is a stage with fewer tasks left. -/
theorem toGo_lt_of_left {reporting reporting' : Bool} {earlier : Option (Except Failure Unit)}
    {stage stage' : Stage κ V E} (hrank : stage'.rank = stage.rank)
    (hleft : stage'.left < stage.left) :
    (⟨reporting', earlier, stage'⟩ : Teardown κ V E).toGo <
      (⟨reporting, earlier, stage⟩ : Teardown κ V E).toGo :=
  Prod.Lex.toLex_lt_toLex.mpr (.inr ⟨by rw [hrank], hleft⟩)

/-- What one step of a teardown by thread `t` comes to. -/
inductive Onward (t : Tid) (s : Pipeline κ V E) (d : Teardown κ V E) :
    Turn κ (Teardown κ V E) (Except Failure Unit) → Prop where
  /-- It goes on, perhaps when the destructor of a discarded job has ended. -/
  | nearer {r : Turn κ (Teardown κ V E) (Except Failure Unit)} (d' : Teardown κ V E) :
      r.next? = some d' → d'.reporting = d.reporting → d'.stage.IsPlain t → d'.toGo < d.toGo →
      (d'.said? = d.said? ∨ d'.said? = found? t s.health) →
      (∀ code, r = .run code d' → ∃ c, d'.stage = .clearing c) → Onward t s d r
  | answered (report : Except Failure Unit) : (d.reporting = true → d.said? = some report) →
      (d.reporting = false → report = .ok ()) → d.rests = true → Onward t s d (.ret report)
  /-- A destructor has failed. -/
  | failed (n : Nat) (fault : Fault) : d.stage = .clearing (.finalizing n [] (some fault)) →
      Onward t s d (.fail fault)
  /-- Two destructors have failed. -/
  | broken : d.stage = .clearing .broken → Onward t s d .abort

/-- It goes on with a later stage of the same pass, and knows what it knew. -/
theorem Onward.stay {reporting : Bool} {earlier : Option (Except Failure Unit)}
    {stage stage' : Stage κ V E} (hplain : stage'.IsPlain t) (hless : stage'.rank < stage.rank)
    (hsaid : (⟨reporting, earlier, stage'⟩ : Teardown κ V E).said? =
      (⟨reporting, earlier, stage⟩ : Teardown κ V E).said?) :
    Onward t s ⟨reporting, earlier, stage⟩ (.stay ⟨reporting, earlier, stage'⟩) :=
  .nearer _ rfl rfl hplain (toGo_lt hless) (.inl hsaid) nofun

/-- **A teardown goes on to its end**, one step. -/
theorem onward_of_turn {d : Teardown κ V E} {r : Turn κ (Teardown κ V E) (Except Failure Unit)}
    (h : d.turn t choice s = some (s', events, r)) (hplain : d.stage.IsPlain t)
    (hrested : Rested t d s) : Onward t s d r := by
  cases stepped_of_turn h with
  | claimed _ => exact .stay trivial (Nat.le_of_ble_eq_true rfl) rfl
  | @unclaimed _ earlier hjoinable =>
      cases earlier with
      | none => exact absurd (hrested.unclaimed rfl rfl) (by simp [hjoinable])
      | some report => exact .stay (fun _ => rfl) (Nat.le_of_ble_eq_true rfl) rfl
  | closing hvisit =>
      obtain ⟨rfl, -, heq⟩ | ⟨again, rfl, -, heq⟩ | ⟨answer, rfl, -, heq⟩ :=
        Visit.plain_cases hvisit hplain <;> cases heq
      all_goals exact .stay trivial (Nat.le_of_ble_eq_true rfl) rfl
  | closed _ => exact .stay trivial (Nat.le_of_ble_eq_true rfl) rfl
  | closeFailed _ => exact hplain.elim
  | @clearing _ _ c _ _ _ hclear =>
      cases c with
      | taking phase =>
          obtain ⟨⟨c₁, progress⟩, hvisit, heq⟩ := Option.map_eq_some_iff.mp hclear
          cases heq
          obtain ⟨rfl, -, rfl⟩ | ⟨again, rfl, -, rfl⟩ | ⟨entries, rfl, -, rfl⟩ :=
            Visit.plain_cases hvisit hplain
          all_goals exact .stay trivial (Nat.le_of_ble_eq_true rfl) rfl
      | finalizing n rest fault =>
          cases rest with
          | nil =>
              cases fault with
              | none =>
                  cases hclear
                  exact .stay trivial (Nat.lt_succ_self _) rfl
              | some fault =>
                  cases hclear
                  exact .failed n fault rfl
          | cons entry rest =>
              cases hclear
              cases entry.onDrop? with
              | none =>
                  exact .nearer _ rfl rfl trivial (toGo_lt_of_left rfl (Nat.lt_succ_self _))
                    (.inl rfl) (by rintro _ ⟨⟩)
              | some code =>
                  exact .nearer _ rfl rfl trivial (toGo_lt_of_left rfl (Nat.lt_succ_self _))
                    (.inl rfl) fun _ _ => ⟨_, rfl⟩
      | broken =>
          cases hclear
          exact .broken rfl
  | cleared n => exact .stay trivial (Nat.le_of_ble_eq_true rfl) rfl
  | @stopping _ _ n p _ _ _ hpush =>
      rcases Channel.Push.adds_of_turn hpush hplain with ⟨p', rfl, hadds, hless⟩ | rfl
      · exact .stay hadds (Nat.add_lt_add_right hless 5) rfl
      · refine .stay trivial ?_ rfl
        cases p with
        | adding _ _ | notifying | hooking => exact Nat.lt_add_of_pos_left (Nat.succ_pos _)
        | ending _ => exact hplain.elim
  | @stayed _ earlier _ hown =>
      refine .nearer _ rfl rfl (fun _ => rfl) (toGo_lt (Nat.le_of_ble_eq_true rfl)) ?_
        (by rintro _ ⟨⟩)
      cases earlier with
      | none => exact .inr (by rw [found?, if_pos hown]; rfl)
      | some report => exact .inl rfl
  | parted hother => exact .stay hother (Nat.le_of_ble_eq_true rfl) rfl
  | @joined _ earlier _ outcome hverdict =>
      refine .nearer _ rfl rfl ⟨trivial, hplain⟩ (toGo_lt (Nat.le_of_ble_eq_true rfl)) ?_
        (by rintro _ ⟨⟩)
      cases earlier with
      | none => exact .inr (by rw [found?_of_ne hplain]; exact hverdict.symm)
      | some report => exact .inl rfl
  | counting hsize =>
      obtain ⟨⟨c₁, progress⟩, hvisit, heq⟩ := Option.map_eq_some_iff.mp hsize
      cases heq
      obtain ⟨rfl, -, rfl⟩ | ⟨again, rfl, -, rfl⟩ | ⟨k, rfl, -, rfl⟩ :=
        Visit.plain_cases hvisit hplain.1
      · exact .stay ⟨trivial, hplain.2⟩ (Nat.le_of_ble_eq_true rfl) rfl
      · exact .stay ⟨trivial, hplain.2⟩ (Nat.le_of_ble_eq_true rfl) rfl
      · exact .stay (fun ht => absurd ht hplain.2) (Nat.le_of_ble_eq_true rfl) rfl
  | again outcome =>
      exact .nearer _ rfl rfl trivial
        (Prod.Lex.toLex_lt_toLex.mpr (.inl (Nat.le_of_ble_eq_true rfl))) (.inl rfl)
        (by rintro _ ⟨⟩)
  | reported _ report => exact .answered report (fun _ => rfl) nofun rfl
  | unreported _ => exact .answered _ nofun (fun _ => rfl) rfl

/-- A destructor that has ended brings a teardown no further from its end. -/
theorem toGo_resume_le {ρ : Type} (d : Teardown κ V E) (result : Except Fault ρ) :
    (d.resume result).toGo ≤ d.toGo := by
  obtain ⟨reporting, earlier, stage⟩ := d
  cases stage with
  | clearing c =>
      cases c with
      | taking _ | broken => cases result <;> exact le_refl _
      | finalizing n rest fault =>
          cases result with
          | ok _ => exact le_refl _
          | error _ =>
              cases fault with
              | none => exact le_refl _
              | some _ => exact Prod.Lex.toLex_le_toLex.mpr (.inr ⟨rfl, Nat.zero_le _⟩)
  | _ => exact le_refl _

theorem isPlain_resume {ρ : Type} {d : Teardown κ V E} (h : d.stage.IsPlain t)
    (result : Except Fault ρ) : (d.resume result).stage.IsPlain t := by
  obtain ⟨reporting, earlier, stage⟩ := d
  cases stage with
  | clearing c =>
      cases c with
      | taking _ => cases result <;> exact h
      | finalizing n rest fault => cases result <;> cases fault <;> trivial
      | broken => cases result <;> trivial
  | _ => exact h

theorem said?_resume {ρ : Type} (d : Teardown κ V E) (result : Except Fault ρ) :
    (d.resume result).said? = d.said? := by
  obtain ⟨reporting, earlier, stage⟩ := d
  cases stage <;> rfl

theorem reporting_resume {ρ : Type} (d : Teardown κ V E) (result : Except Fault ρ) :
    (d.resume result).reporting = d.reporting := by
  obtain ⟨reporting, earlier, stage⟩ := d
  cases stage <;> rfl

/-- A teardown goes on when the lock is free that it wants, and the worker's thread has ended if it
is to join that. -/
theorem isSome_turn {d : Teardown κ V E} (h : d.stage.IsPlain t)
    (hjoin : ∀ n, d.stage = .joining n → s.health ≠ .alive) :
    (d.turn t choice s : Option (Pipeline κ V E × List (Event V E ν) ×
      Turn κ (Teardown κ V E) (Except Failure Unit))).isSome = isFree s d.stage.wants := by
  obtain ⟨reporting, earlier, stage⟩ := d
  cases stage with
  | claiming =>
      cases hjoinable : s.joinable <;> simp [turn, stageTurn, hjoinable, Stage.wants, isFree]
  | closing phase =>
      rw [turn, stageTurn, Option.isSome_map, close, Visit.isSome_turn_plain h, Stage.wants,
        isFree_unless]
      rfl
  | clearing c =>
      rw [turn, stageTurn, Option.isSome_map, Channel.Clear.isSome_turn h, Stage.wants, isFree_ite]
      rfl
  | cleared n => rfl
  | stopping n p =>
      rw [turn, stageTurn, Option.isSome_map, Channel.Push.isSome_turn, Stage.wants, isFree_ite]
      · rfl
      · cases p with
        | adding _ _ => exact h
        | notifying | hooking | ending _ => trivial
  | parting n => by_cases ht : t = workerThread <;> simp [turn, stageTurn, ht, Stage.wants, isFree]
  | joining n =>
      rw [turn, stageTurn, Option.isSome_map]
      cases hhealth : s.health with
      | alive => exact absurd hhealth (hjoin n rfl)
      | exited | dead _ => rfl
  | counting n outcome phase =>
      rw [turn, stageTurn, Option.isSome_map, Channel.isSome_sizeTurn h.1, Stage.wants,
        isFree_unless]
      rfl
  | ending outcome =>
      simp only [turn, stageTurn]
      cases reporting <;> cases earlier <;> rfl

end Teardown

/-! ### Scenes -/

section Scenes

variable {v v' : View κ V E ν} {d' : Teardown κ V E}

/-- How a teardown of thread `u` has come to where it is by a step of thread `t`. -/
inductive TearingMoved (plan : Plan κ) (t u : Tid) (v v' : View κ V E ν) (d' : Teardown κ V E) :
    Prop where
  | stood : d' ∈ picks Part.tearing? (v.calls u).all → TearingMoved plan t u v v' d'
  /-- A destructor has ended that it ran. -/
  | resumed (d : Teardown κ V E) (result : Except Fault (Except E V)) :
      d ∈ picks Part.tearing? (v.calls u).all → d' = d.resume result → v'.shared = v.shared →
      TearingMoved plan t u v v' d'
  /-- The pipeline has been taken from its owner. -/
  | began (reporting : Bool) : d' = { reporting := reporting } → TearingMoved plan t u v v' d'
  | turned {choice : Choice} {events : List (Event V E ν)}
      {r : Turn κ (Teardown κ V E) (Except Failure Unit)} (d : Teardown κ V E) : u = t →
      d ∈ picks Part.tearing? (v.calls t).all →
      d.turn t choice v.shared = some (v'.shared, events, r) → r.next? = some d' →
      v'.history = v.history ++ events.map (Prod.mk t) → TearingMoved plan t u v v' d'

/-- **Inversion.** A teardown has come to where it is in one of these ways. -/
theorem tearingMoved_of_moved (h : Moved plan t v v') (hv : Orderly v)
    (hd' : d' ∈ picks Part.tearing? (v'.calls u).all) : TearingMoved plan t u v v' d' := by
  obtain ⟨call', hcall', hpart'⟩ := List.mem_filterMap.mp hd'
  cases came_of_moved h hcall' with
  | stood hcall => exact .stood (List.mem_filterMap.mpr ⟨call', hcall, hpart'⟩)
  | began request _ heq =>
      subst heq
      rw [tearing?_of_isFresh (isFresh_call request)] at hpart'
      cases hpart'
  | @resumed call rest result hu hwaits heq hsame =>
      subst hu heq
      rw [part_resume, tearing?_resume] at hpart'
      obtain ⟨d, hd, rfl⟩ := Option.map_eq_some_iff.mp hpart'
      refine .resumed d result (List.mem_filterMap.mpr ⟨call, ?_, hd⟩) rfl (by rw [hsame]; rfl)
      rw [hwaits]
      exact List.mem_cons_self
  | @turned call rest choice events r hu hactive hsound hturn hnext hhistory =>
      subst hu
      have hgoes : (nextPart r).tearing? = some d' := by
        rw [nextPart, hnext]
        exact hpart'
      cases htearing : call.part.tearing? with
      | none =>
          obtain ⟨-, hnone | ⟨-, -, reporting, hbegins⟩⟩ :=
            tame_of_turn hsound htearing hturn (hv.gated.found u call (by rw [hactive]))
          · rw [hnone] at hgoes
            cases hgoes
          · exact .began reporting (Option.some.inj (hgoes.symm.trans hbegins))
      | some d =>
          obtain ⟨r', hstep, hlift⟩ := turn_tearing (eq_tearing_of_tearing? htearing) hturn
          rw [hlift.nextPart_eq, tearing?_getD] at hgoes
          refine .turned d rfl (List.mem_filterMap.mpr ⟨call, ?_, htearing⟩) hstep hgoes hhistory
          rw [hactive]
          exact List.mem_cons_self

/-- How the worker's thread has ended stays so. -/
theorem verdict_of_moved (h : Moved plan t v v') (hv : Orderly v) {report : Except Failure Unit}
    (hreport : Teardown.verdict? v.shared.health = some report) :
    Teardown.verdict? v'.shared.health = some report := by
  have hended : v.shared.health ≠ .alive := by
    intro halive
    rw [halive] at hreport
    cases hreport
  obtain ⟨w, hstaff⟩ := hv.staff
  obtain ⟨rfl, -⟩ := calls_of_ended hstaff hended
  obtain ⟨w', -, hworker⟩ := workerMoved_of_moved h hstaff
  cases hworker with
  | stood events hbystander _ _ _ =>
      rw [hbystander.health_eq]
      exact hreport

/-- Whether a teardown by thread `u` is in a stage in which teardowns can be, and what it is going
to report, once it knows, is what it has found about the worker's thread. -/
structure Teardown.Told (u : Tid) (d : Teardown κ V E) (s : Pipeline κ V E) : Prop where
  plain : d.stage.IsPlain u
  told : ∀ report, d.said? = some report → found? u s.health = some report

/-- What a teardown has found stays so. -/
theorem found_of_moved (h : Moved plan t v v') (hv : Orderly v) {report : Except Failure Unit}
    (hreport : Teardown.found? u v.shared.health = some report) :
    Teardown.found? u v'.shared.health = some report := by
  by_cases hu : u = workerThread
  · rwa [Teardown.found?, if_pos hu] at hreport ⊢
  · rw [Teardown.found?_of_ne hu] at hreport ⊢
    exact verdict_of_moved h hv hreport

/-- **The verdict, one step.** -/
theorem told_of_moved (hv : Scene.Reach (library plan) opening v) (h : Moved plan t v v')
    (htold : ∀ d ∈ picks Part.tearing? (v.calls u).all, d.Told u v.shared) :
    ∀ d ∈ picks Part.tearing? (v'.calls u).all, d.Told u v'.shared := by
  intro d' hd'
  have horder := orderly_of_reach hv
  cases tearingMoved_of_moved h horder hd' with
  | stood hd =>
      exact ⟨(htold d' hd).plain, fun report hsaid =>
        found_of_moved h horder ((htold d' hd).told report hsaid)⟩
  | resumed d result hd heq hshared =>
      subst heq
      refine ⟨Teardown.isPlain_resume (htold d hd).plain result, fun report hsaid => ?_⟩
      rw [Teardown.said?_resume] at hsaid
      rw [hshared]
      exact (htold d hd).told report hsaid
  | began reporting heq =>
      subst heq
      exact ⟨trivial, nofun⟩
  | @turned choice events r d ht hd hturn hnext _ =>
      subst ht
      obtain ⟨u₀, x, hclosing⟩ := horder.closing
      obtain ⟨rfl, rfl⟩ := hclosing.sole.eq_of_mem hd
      have hhealth := (Teardown.frame_of_turn (Teardown.turned_of_turn hturn)).2.1
      cases Teardown.onward_of_turn hturn (htold d hd).plain (hclosing.rested d rfl) with
      | nearer d'' hnext' _ hplain _ hsaid _ =>
          obtain rfl := Option.some.inj (hnext'.symm.trans hnext)
          refine ⟨hplain, fun report hreport => ?_⟩
          rw [hhealth]
          rcases hsaid with hsame | hjoined
          · exact (htold d hd).told report (hsame ▸ hreport)
          · exact hjoined ▸ hreport
      | answered _ _ _ _ | failed _ _ _ | broken _ => cases hnext

/-- **The verdict.** In every reachable scene, what a teardown is going to report, once it knows, is
what it has found about the worker's thread: how that has ended, or success if it is its own. -/
theorem told_of_reach (h : Scene.Reach (library plan) opening v) (u : Tid) :
    ∀ d ∈ picks Part.tearing? (v.calls u).all, d.Told u v.shared :=
  h.invariant (P := fun v => ∀ d ∈ picks Part.tearing? (v.calls u).all, d.Told u v.shared)
    (fun d hd => by
      obtain ⟨call, hcall, hpart⟩ := List.mem_filterMap.mp hd
      rw [eq_of_mem_opening hcall] at hpart
      cases hpart)
    fun _ _ _ hs htold hstep => told_of_moved hs (moved_of_reach hs hstep) htold

end Scenes

end Offload.Pipeline
