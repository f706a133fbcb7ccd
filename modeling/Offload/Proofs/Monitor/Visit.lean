import Mathlib.Data.List.Nodup
import Offload.Monitor.Visit

/-!
# What a visit can do

One inversion lemma says everything that one step of a visit can be (`Visit.turned_of_turn`).
Three consequences are what the users of monitors need as long as nobody waits:

* `Visit.owner_of_turn`: a visit that owns the lock exactly in the phases that own it leaves
  the lock of every other thread alone.
* `Visit.value_of_turn`: the value changes only in the step that runs the critical section,
  and that step gives the section's outcome.
* `Visit.held_of_turn`: a visit holds an answer from that step on, and until it leaves.
-/

namespace Offload

variable {α β : Type}

/-- Whether a visit that has come so far owns the lock. -/
def Progress.owns : Progress β → Bool
  | .on phase => phase.owns
  | .ended _ => false

@[simp] theorem Progress.owns_on (phase : Phase β) : (Progress.on phase).owns = phase.owns := rfl

@[simp] theorem Progress.owns_ended (outcome : Except Fault (Option β)) :
    (Progress.ended outcome).owns = false := rfl

/-- What a visit in this phase has from its critical section and is about to answer with. -/
def Phase.held : Phase β → Option β
  | .leaving (.ok answer) => answer
  | _ => none

theorem Phase.held_eq_some {phase : Phase β} {answer : β} (h : phase.held = some answer) :
    phase = .leaving (.ok (some answer)) := by
  rcases phase with _ | _ | _ | _ | _ | _ | _ | answer'
  all_goals cases h
  rfl

/-- A phase of a visit that does not wait, and whose critical section does not fail. -/
def Phase.IsPlain : Phase β → Prop
  | .arriving | .acting _ | .leaving (.ok (some _)) => True
  | .testing _ | .drowsy | .asleep | .overslept | .leaving _ => False

/-- Whether a visit in this phase is not on its way out because of a fault. -/
def Phase.IsSound : Phase β → Prop
  | .leaving (.error _) => False
  | _ => True

namespace Monitor

variable {m m' : Monitor α} {t : Tid}

/-- The lock is taken exactly when nobody owns it. -/
theorem acquire_eq_some (h : m.acquire t = some m') :
    m.owner = none ∧ m' = { m with owner := some t } := by
  unfold acquire at h
  split at h
  · next hfree => exact ⟨by simpa using hfree, by simpa using h.symm⟩
  · cases h

/-- A notification takes one sleeper off the condition, if there is any. -/
theorem exists_of_notifyOne (pick : Nat)
    (hnodup : m.sleepers.Nodup) (hne : m.sleepers ≠ []) :
    ∃ u ∈ m.sleepers, (m.notifyOne pick).sleepers = m.sleepers.erase u := by
  have hlt : pick % m.sleepers.length < m.sleepers.length :=
    Nat.mod_lt _ (List.length_pos_iff.mpr hne)
  exact ⟨_, List.getElem_mem hlt, (hnodup.erase_getElem _ hlt).symm⟩

end Monitor

namespace Visit

/-- What one step of a visit of thread `t` may be. -/
inductive Turned (v : Visit α β) (t : Tid) (choice : Choice) (m : Monitor α) :
    Phase β → Monitor α → Progress β → Prop where
  | arrived : m.owner = none → Turned v t choice m .arriving { m with owner := some t }
      (.on (if v.await.isSome then .testing false else .acting false))
  | tested {p : α → Except Fault Bool} (again : Bool) : v.await = some p →
      Turned v t choice m (.testing again) m (.on (v.afterTest choice again (p m.value)))
  | untested (again : Bool) : v.await = none →
      Turned v t choice m (.testing again) m (.on (.acting again))
  | slept : Turned v t choice m .drowsy (m.sleep t) (.on .asleep)
  | stirred : t ∈ m.sleepers → Turned v t choice m .asleep (m.rouse t) (.on .asleep)
  | expired : t ∈ m.sleepers → v.limited = true →
      Turned v t choice m .asleep (m.rouse t) (.on .overslept)
  | woken : t ∉ m.sleepers → m.owner = none →
      Turned v t choice m .asleep { m with owner := some t }
        (.on (if m.poisoned then .acting true else .testing true))
  | wokenLate : m.owner = none → Turned v t choice m .overslept { m with owner := some t }
      (.on (if m.poisoned then .leaving (.ok none) else .testing true))
  | acted (again : Bool) : Turned v t choice m (.acting again)
      { m with value := (v.body m.value).1 } (.on (.leaving ((v.body m.value).2.map some)))
  | left (answer : Option β) : Turned v t choice m (.leaving (.ok answer)) m.release
      (.ended (.ok answer))
  | leftFaulted (fault : Fault) : Turned v t choice m (.leaving (.error fault)) m.releaseFaulted
      (.ended (.error fault))

variable {v : Visit α β} {t : Tid} {choice : Choice} {m m' : Monitor α} {phase : Phase β}
  {progress : Progress β}

/-- Waking takes the lock, and the poison of the monitor decides what follows. -/
theorem wake_eq_some {poisonedPhase : Phase β}
    (h : wake m t poisonedPhase = some (m', progress)) :
    m.owner = none ∧ m' = { m with owner := some t } ∧
      progress = .on (if m.poisoned then poisonedPhase else .testing true) := by
  obtain ⟨m₁, hm₁, heq⟩ := Option.map_eq_some_iff.mp h
  obtain ⟨hfree, rfl⟩ := Monitor.acquire_eq_some hm₁
  cases heq
  exact ⟨hfree, rfl, rfl⟩

/-- **Inversion.** Every step of a visit is one of these. -/
theorem turned_of_turn (h : v.turn t choice m phase = some (m', progress)) :
    v.Turned t choice m phase m' progress := by
  cases phase with
  | arriving =>
      obtain ⟨m₁, hm₁, heq⟩ := Option.map_eq_some_iff.mp h
      obtain ⟨hfree, rfl⟩ := Monitor.acquire_eq_some hm₁
      cases heq
      exact .arrived hfree
  | testing again =>
      cases hawait : v.await with
      | none =>
          simp only [turn, hawait, Option.some.injEq, Prod.mk.injEq] at h
          obtain ⟨rfl, rfl⟩ := h
          exact .untested again hawait
      | some p =>
          simp only [turn, hawait, Option.some.injEq, Prod.mk.injEq] at h
          obtain ⟨rfl, rfl⟩ := h
          exact .tested again hawait
  | drowsy =>
      cases h
      exact .slept
  | asleep =>
      simp only [turn] at h
      split at h
      · next hsleeps =>
        cases choice with
        | go pick => cases h
        | stir =>
            cases h
            exact .stirred hsleeps
        | expire =>
            by_cases hlimited : v.limited = true
            · simp only [hlimited, if_true, Option.some.injEq, Prod.mk.injEq] at h
              obtain ⟨rfl, rfl⟩ := h
              exact .expired hsleeps hlimited
            · simp [hlimited] at h
      · next hnotified =>
        obtain ⟨hfree, rfl, rfl⟩ := wake_eq_some h
        exact .woken hnotified hfree
  | overslept =>
      obtain ⟨hfree, rfl, rfl⟩ := wake_eq_some h
      exact .wokenLate hfree
  | acting again =>
      cases h
      exact .acted again
  | leaving outcome =>
      cases outcome with
      | ok answer =>
          cases h
          exact .left answer
      | error fault =>
          cases h
          exact .leftFaulted fault

/-- A visit whose phases own the lock keeps to it: afterwards it owns the lock if its phase
does, and no other thread has lost it. -/
theorem owner_of_turn (h : v.turn t choice m phase = some (m', progress))
    (hown : phase.owns = true → m.owner = some t) :
    (progress.owns = true → m'.owner = some t) ∧
      ∀ u, u ≠ t → m.owner = some u → m'.owner = some u := by
  -- a phase that owns the lock leaves no room for another owner
  have hother : phase.owns = true → ∀ u, u ≠ t → m.owner ≠ some u := by
    intro howns u hu hm
    rw [hown howns] at hm
    exact hu (Option.some.inj hm).symm
  cases turned_of_turn h with
  | arrived hfree | woken _ hfree | wokenLate hfree => simp [hfree]
  | tested again _ | untested again _ | acted again =>
      exact ⟨fun _ => hown rfl, fun u hu hm => absurd hm (hother rfl u hu)⟩
  | slept => exact ⟨by simp [Phase.owns], fun u hu hm => absurd hm (hother rfl u hu)⟩
  | stirred _ | expired _ _ => exact ⟨by simp [Phase.owns], fun u _ hm => hm⟩
  | left _ | leftFaulted _ =>
      exact ⟨by simp, fun u hu hm => absurd hm (hother rfl u hu)⟩

/-- A visit comes to own the lock only when nobody does. -/
theorem free_of_turn {phase' : Phase β} (h : v.turn t choice m phase = some (m', .on phase'))
    (howns : phase.owns = false) (howns' : phase'.owns = true) : m.owner = none := by
  generalize hprogress : Progress.on phase' = progress at h
  cases turned_of_turn h with
  | arrived hfree | woken _ hfree | wokenLate hfree => exact hfree
  | tested _ _ | untested _ _ | slept | acted _ | left _ | leftFaulted _ => cases howns
  | stirred _ | expired _ _ =>
      cases hprogress
      cases howns'

/-- The value changes only when the critical section runs, and the step that runs it is the
one that gives its answer. -/
theorem value_of_turn (h : v.turn t choice m phase = some (m', progress)) :
    (m'.value = m.value ∧ answer? phase progress = none ∧ ∀ again, phase ≠ .acting again) ∨
      ∃ again, phase = .acting again ∧ m'.value = (v.body m.value).1 ∧
        progress = .on (.leaving ((v.body m.value).2.map some)) ∧
        answer? phase progress = (v.body m.value).2.toOption := by
  cases turned_of_turn h with
  | acted again =>
      refine .inr ⟨again, rfl, rfl, rfl, ?_⟩
      cases (v.body m.value).2 <;> rfl
  | _ => exact .inl ⟨rfl, rfl, nofun⟩

/-- Only running the critical section makes a visit leave with an answer. -/
theorem acting_of_leaving {answer : β}
    (h : v.turn t choice m phase = some (m', .on (.leaving (.ok (some answer))))) :
    ∃ again, phase = .acting again := by
  generalize hprogress : Progress.on (.leaving (.ok (some answer))) = progress at h
  cases turned_of_turn h with
  | acted again => exact ⟨again, rfl⟩
  | arrived _ =>
      split at hprogress <;> cases hprogress
  | @tested p again _ =>
      rw [afterTest.eq_def] at hprogress
      split at hprogress
      · cases hprogress
      · cases hprogress
      · split at hprogress <;> cases hprogress
  | woken _ _ | wokenLate _ =>
      split at hprogress <;> cases hprogress
  | untested | slept | stirred | expired | left | leftFaulted => cases hprogress

/-- A visit comes to hold an answer in the very step that runs its critical section, and goes
on only while it holds none. -/
theorem held_of_turn {phase' : Phase β} (h : v.turn t choice m phase = some (m', .on phase')) :
    phase.held = none ∧ phase'.held = answer? phase (.on phase') := by
  constructor
  · cases hheld : phase.held with
    | none => rfl
    | some answer =>
        rw [Phase.held_eq_some hheld] at h
        cases h
  · cases hheld : phase'.held with
    | some answer =>
        obtain rfl := Phase.held_eq_some hheld
        obtain ⟨again, rfl⟩ := acting_of_leaving h
        rfl
    | none =>
        rcases phase with _ | _ | _ | _ | _ | again | outcome
        case acting =>
          rcases phase' with _ | _ | _ | _ | _ | _ | fault | answer
          all_goals first | rfl | exact hheld.symm
        all_goals rfl

/-- A visit that does not wait, and whose critical section does not fail, stays so. -/
theorem isPlain_of_turn {phase' : Phase β} (hawait : v.await = none)
    (hbody : ∀ a, ∃ b, (v.body a).2 = .ok b)
    (h : v.turn t choice m phase = some (m', .on phase')) (hplain : phase.IsPlain) :
    phase'.IsPlain := by
  generalize hprogress : Progress.on phase' = progress at h
  cases turned_of_turn h with
  | arrived _ =>
      cases hprogress
      simp [hawait, Phase.IsPlain]
  | acted again =>
      cases hprogress
      obtain ⟨b, hb⟩ := hbody m.value
      rw [hb]
      trivial
  | left _ | leftFaulted _ => cases hprogress
  | tested _ _ | untested _ _ | slept | stirred _ | expired _ _ | woken _ _ | wokenLate _ =>
      exact hplain.elim

/-- A visit whose test and whose critical section do not fail does not leave with a fault. -/
theorem isSound_of_turn {phase' : Phase β}
    (hawait : ∀ p, v.await = some p → ∀ a, ∃ b, p a = .ok b)
    (hbody : ∀ a, ∃ b, (v.body a).2 = .ok b)
    (h : v.turn t choice m phase = some (m', .on phase')) : phase'.IsSound := by
  generalize hprogress : Progress.on phase' = progress at h
  cases turned_of_turn h with
  | tested again hp =>
      cases hprogress
      obtain ⟨b, hb⟩ := hawait _ hp m.value
      rw [hb, afterTest.eq_def]
      cases b with
      | true => trivial
      | false =>
          dsimp only
          split <;> trivial
  | acted again =>
      cases hprogress
      obtain ⟨b, hb⟩ := hbody m.value
      rw [hb]
      trivial
  | arrived _ | woken _ _ | wokenLate _ =>
      cases hprogress
      split <;> trivial
  | untested _ _ | slept | stirred _ | expired _ _ =>
      cases hprogress
      trivial
  | left _ | leftFaulted _ => cases hprogress

/-- **Inversion.** Every step of a visit that only runs a critical section is one of three. -/
theorem plain_cases {body : Critical α β}
    (h : (Visit.plain body).turn t choice m phase = some (m', progress)) (hplain : phase.IsPlain) :
    (phase = .arriving ∧ m' = { m with owner := some t } ∧ progress = .on (.acting false)) ∨
      (∃ again, phase = .acting again ∧ m' = { m with value := (body m.value).1 } ∧
        progress = .on (.leaving ((body m.value).2.map some))) ∨
      ∃ answer, phase = .leaving (.ok (some answer)) ∧ m' = m.release ∧
        progress = .ended (.ok (some answer)) := by
  cases turned_of_turn h with
  | arrived _ => exact .inl ⟨rfl, rfl, rfl⟩
  | acted again => exact .inr (.inl ⟨again, rfl, rfl, rfl⟩)
  | left answer =>
      cases answer with
      | some answer => exact .inr (.inr ⟨answer, rfl, rfl, rfl⟩)
      | none => exact hplain.elim
  | tested _ _ | untested _ _ | slept | stirred _ | expired _ _ | woken _ _ | wokenLate _
  | leftFaulted _ => exact hplain.elim

/-- A visit ends with the outcome with which it leaves. -/
theorem leaving_of_ended {outcome : Except Fault (Option β)}
    (h : v.turn t choice m phase = some (m', .ended outcome)) : phase = .leaving outcome := by
  generalize hprogress : Progress.ended outcome = progress at h
  cases turned_of_turn h with
  | left answer | leftFaulted fault =>
      cases hprogress
      rfl
  | _ => cases hprogress

end Visit

end Offload
