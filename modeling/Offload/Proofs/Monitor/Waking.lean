import Offload.Proofs.Monitor.Steps

/-!
# Nobody sleeps on a true predicate

A visit falls asleep when it has found its predicate false, in one step with leaving the lock. From
then on its predicate can become true only by a step that changes the value, and the thread that
made this step **owes** a notification of all sleepers until it makes one. So whoever sleeps
un-notified sleeps on a predicate that is false, or somebody owes a notification; when nobody does,
nobody sleeps on a true predicate. The lock need not be free when the notification comes, and it
does not matter whether the monitor is poisoned.

## Main results

* `Guarded.debts`: the observer of who owes a notification.
* `Guarded.lulled_of_step`: the invariant, kept by every step of every thread.
* `Guarded.asleep_on_false`: what every sleeper sleeps on, in every run.
-/

namespace Offload

variable {κ ω α β ρ ε : Type}

/-! ### One step of a visit -/

namespace Visit

variable {v : Visit α β} {t : Tid} {choice : Choice} {m m' : Monitor α} {phase : Phase β}
  {progress : Progress β}

/-- A visit becomes drowsy by a test that finds its predicate false. -/
theorem drowsy_of_turn (h : v.turn t choice m phase = some (m', .on .drowsy)) :
    m' = m ∧ ∃ p, v.await = some p ∧ p m.value = .ok false := by
  generalize hprogress : Progress.on .drowsy = progress at h
  cases turned_of_turn h with
  | @tested p again hp =>
      refine ⟨rfl, p, hp, ?_⟩
      cases htest : p m.value with
      | error fault =>
          rw [htest] at hprogress
          cases hprogress
      | ok b =>
          cases b with
          | true =>
              rw [htest] at hprogress
              cases hprogress
          | false => rfl
  | arrived _ | woken _ _ | wokenLate _ => split at hprogress <;> cases hprogress
  | untested _ _ | slept | stirred _ | expired _ _ | acted _ | left _ | leftFaulted _ =>
      cases hprogress

/-- A visit of a thread that sleeps only while its visit is asleep falls asleep itself, or does not
sleep afterwards and wakes nobody else but perhaps itself. -/
theorem sleepers_of_turn (h : v.turn t choice m phase = some (m', progress))
    (hnodup : m.sleepers.Nodup) (hasleep : t ∈ m.sleepers → phase = .asleep) :
    (phase = .drowsy ∧ m' = m.sleep t ∧ progress = .on .asleep) ∨
      (m'.sleepers.Sublist m.sleepers ∧ t ∉ m'.sleepers) := by
  have hgone : t ∉ m.sleepers.erase t := fun hmem => (hnodup.mem_erase_iff.mp hmem).1 rfl
  cases turned_of_turn h with
  | slept => exact .inl ⟨rfl, rfl, rfl⟩
  | stirred _ | expired _ _ => exact .inr ⟨List.erase_sublist, hgone⟩
  | woken hnotified _ => exact .inr ⟨.refl _, hnotified⟩
  | arrived _ | tested _ _ | untested _ _ | wokenLate _ | acted _ | left _ | leftFaulted _ =>
      exact .inr ⟨.refl _, fun hmem => nomatch hasleep hmem⟩

end Visit

namespace Guarded

variable {next : κ → Move κ ω (Call α β) (Answer β) ρ ε} {value : α} {world : ω} {codes : List κ}
  {s s' : State κ ω (Guarded α) (Call α β) (Answer β) ε} {t u : Tid} {choice : Choice}

/-! ### One step of a call -/

section Calls

variable {g g' : Guarded α} {call : Call α β} {r : Turn κ (Call α β) (Answer β)}

/-- A call of a thread that sleeps only in a visit falls asleep, or the thread does not sleep
afterwards, and the call puts nobody else to sleep; if it notifies all, nobody sleeps at all. -/
theorem sleepers_of_turn (h : turn t choice g call = some (g', r))
    (hnodup : g.monitor.sleepers.Nodup)
    (hasleep : t ∈ g.monitor.sleepers → ∃ v, call = .visit v .asleep) :
    (∃ v, call = .visit v .drowsy ∧ g' = { g with monitor := g.monitor.sleep t } ∧
        r = .stay (.visit v .asleep)) ∨
      (g'.monitor.sleepers.Sublist g.monitor.sleepers ∧ t ∉ g'.monitor.sleepers ∧
        (call = .notifyAll → g'.monitor.sleepers = [])) := by
  by_cases hvisit : ∃ v phase, call = .visit v phase
  · obtain ⟨v, phase, rfl⟩ := hvisit
    obtain ⟨⟨monitor, progress⟩, hvisit, heq⟩ := Option.map_eq_some_iff.mp h
    cases heq
    have hphase : t ∈ g.monitor.sleepers → phase = .asleep := by
      intro hmem
      obtain ⟨v', heq⟩ := hasleep hmem
      cases heq
      rfl
    rcases Visit.sleepers_of_turn hvisit hnodup hphase with ⟨rfl, rfl, rfl⟩ | ⟨hsub, hnot⟩
    · exact .inl ⟨v, rfl, rfl, rfl⟩
    · exact .inr ⟨hsub, hnot, nofun⟩
  · have hcall : ∀ v phase, call ≠ .visit v phase := fun v phase heq => hvisit ⟨v, phase, heq⟩
    have hawake : t ∉ g.monitor.sleepers := by
      intro hmem
      obtain ⟨v, rfl⟩ := hasleep hmem
      exact hcall v _ rfl
    cases operated_of_turn hcall h with
    | notifiedOne =>
        have hsub : (g.monitor.notifyOne choice.pick).sleepers.Sublist g.monitor.sleepers :=
          List.eraseIdx_sublist _ _
        exact .inr ⟨hsub, fun hmem => hawake (hsub.subset hmem), nofun⟩
    | notifiedAll => exact .inr ⟨List.nil_sublist _, List.not_mem_nil, fun _ => rfl⟩
    | returned faulted _ _ _ _ => cases faulted <;> exact .inr ⟨.refl _, hawake, nofun⟩
    | leased _ | excluded _ _ | shared _ _ | unshared _ _ _ _ | counted _ _ | entered _ _ _
    | refused _ _ _ | updated _ _ _ _ | exited _ _ => exact .inr ⟨.refl _, hawake, nofun⟩

end Calls

/-! ### Who owes a notification -/

/-- The observer of who **owes** a notification of all sleepers: a thread that has changed the value
owes it until it makes it. -/
def debts : Machine.Observer κ ω (Guarded α) (Call α β) (Answer β) ε (Tid → Prop) :=
  fun t s s' owes u =>
    if u = t then
      s'.shared.monitor.value ≠ s.shared.monitor.value ∨ (owes t ∧ current s t ≠ some .notifyAll)
    else owes u

variable {owes : Tid → Prop}

/-- A step that changes the value puts its thread in debt. -/
theorem debts_of_changed (h : s'.shared.monitor.value ≠ s.shared.monitor.value) :
    debts t s s' owes t := by
  rw [debts, if_pos rfl]
  exact .inl h

/-- Only a notification of all sleepers takes a thread out of its debt. -/
theorem debts_of_owes (h : current s t ≠ some .notifyAll) (hu : owes u) : debts t s s' owes u := by
  by_cases heq : u = t
  · subst heq
    rw [debts, if_pos rfl]
    exact .inr ⟨hu, h⟩
  · rwa [debts, if_neg heq]

/-- Whether nobody sleeps on a true predicate unless somebody owes a notification, and nobody is
about to. -/
structure Lulled (s : State κ ω (Guarded α) (Call α β) (Answer β) ε) (owes : Tid → Prop) :
    Prop where
  nodup : s.shared.monitor.sleepers.Nodup
  sleepers : ∀ t ∈ s.shared.monitor.sleepers, ∃ v p, current s t = some (.visit v .asleep) ∧
    v.await = some p ∧ (p s.shared.monitor.value = .ok false ∨ ∃ u, owes u)
  drowsy : ∀ t v, current s t = some (.visit v .drowsy) →
    ∃ p, v.await = some p ∧ p s.shared.monitor.value = .ok false

/-- A step of code changes nothing that a sleeper depends on. -/
theorem Lulled.of_coded (hs : Lulled s owes) (hcode : current s t = none)
    (hshared : s'.shared = s.shared)
    (hfresh : ∀ call, current s' t = some call → ∃ request : Call α β, call = request.fresh)
    (hothers : ∀ u, u ≠ t → current s' u = current s u) : Lulled s' (debts t s s' owes) := by
  refine ⟨hshared ▸ hs.nodup, fun u hmem => ?_, fun u v hcall => ?_⟩
  · rw [hshared] at hmem ⊢
    obtain ⟨v, p, hcall, hp, hwhy⟩ := hs.sleepers u hmem
    have hu : u ≠ t := by
      rintro rfl
      rw [hcode] at hcall
      cases hcall
    refine ⟨v, p, (hothers u hu).trans hcall, hp, hwhy.imp_right ?_⟩
    rintro ⟨w, hw⟩
    exact ⟨w, debts_of_owes (by rw [hcode]; exact nofun) hw⟩
  · by_cases hu : u = t
    · subst hu
      obtain ⟨request, heq⟩ := hfresh _ hcall
      cases request <;> cases heq
    · rw [hshared]
      exact hs.drowsy u v ((hothers u hu).symm.trans hcall)

/-- **Nobody sleeps on a true predicate, one step.** -/
theorem lulled_of_step (h : (machine next).Reach (.ofCodes (new value) world codes) s)
    (hs : Lulled s owes) (hstep : (machine next).step t choice s = some s') :
    Lulled s' (debts t s s' owes) := by
  obtain ⟨hmoved, hothers⟩ := moved_of_step h hstep
  cases hmoved with
  | coded hcode hshared hfresh => exact hs.of_coded hcode hshared hfresh hothers
  | @turned call rest r hstack hturn _ hgoes =>
      have hcurrent := current_of_stack hstack
      obtain ⟨howns, hlease⟩ := guarded_of_reach h
      have hasleep : t ∈ s.shared.monitor.sleepers → ∃ v, call = .visit v .asleep := by
        intro hmem
        obtain ⟨v, p, hcall, -, -⟩ := hs.sleepers t hmem
        exact ⟨v, Option.some.inj (hcurrent.symm.trans hcall)⟩
      have hfalls := sleepers_of_turn hturn hs.nodup hasleep
      -- what the others sleep on is still false, or somebody owes a notification
      have hothers' : ∀ u, u ≠ t → u ∈ s.shared.monitor.sleepers → call ≠ .notifyAll →
          ∃ v p, current s' u = some (.visit v .asleep) ∧ v.await = some p ∧
            (p s'.shared.monitor.value = .ok false ∨ ∃ w, debts t s s' owes w) := by
        intro u hu hmem hcall
        obtain ⟨v, p, hvisit, hp, hwhy⟩ := hs.sleepers u hmem
        refine ⟨v, p, (hothers u hu).trans hvisit, hp, ?_⟩
        by_cases hsame : s'.shared.monitor.value = s.shared.monitor.value
        · rw [hsame]
          refine hwhy.imp_right fun ⟨w, hw⟩ => ⟨w, debts_of_owes ?_ hw⟩
          rw [hcurrent]
          exact fun heq => hcall (Option.some.inj heq)
        · exact .inr ⟨t, debts_of_changed hsame⟩
      constructor
      case nodup =>
        rcases hfalls with ⟨v, rfl, hg, -⟩ | ⟨hsub, -, -⟩
        · have hawake : t ∉ s.shared.monitor.sleepers := by
            intro hmem
            obtain ⟨v', heq⟩ := hasleep hmem
            cases heq
          rw [hg]
          exact List.nodup_append.mpr ⟨hs.nodup, List.nodup_singleton t, by
            rintro u hu w hw rfl
            exact hawake (List.mem_singleton.mp hw ▸ hu)⟩
        · exact hs.nodup.sublist hsub
      case sleepers =>
        intro u hmem
        rcases hfalls with ⟨v, rfl, hg, rfl⟩ | ⟨hsub, hawake, hall⟩
        · by_cases hu : u = t
          · subst hu
            obtain ⟨p, hp, hfalse⟩ := hs.drowsy u v hcurrent
            refine ⟨v, p, (hgoes _).mpr rfl, hp, .inl ?_⟩
            rw [hg]
            exact hfalse
          · rw [hg] at hmem
            refine hothers' u hu ?_ nofun
            rcases List.mem_append.mp hmem with hmem | hmem
            · exact hmem
            · exact absurd (List.mem_singleton.mp hmem) hu
        · have hu : u ≠ t := fun heq => hawake (heq ▸ hmem)
          refine hothers' u hu (hsub.subset hmem) fun hcall => ?_
          rw [hall hcall] at hmem
          cases hmem
      case drowsy =>
        intro u v hcall
        by_cases hu : u = t
        · subst hu
          obtain ⟨v', phase, phase', monitor, rfl, heq, hg, hvisit⟩ :=
            visit_of_stay hturn ((hgoes _).mp hcall)
          cases heq
          obtain ⟨rfl, hp⟩ := Visit.drowsy_of_turn hvisit
          rw [hg]
          exact hp
        · -- a drowsy visit owns the lock, so thread `t` leaves the value alone
          rw [hothers u hu] at hcall
          obtain ⟨howner, -⟩ := howns u v _ hcall rfl
          obtain ⟨sleepers, hg⟩ := eq_sleepers_of_turned (turned_of_turn hturn) hu howner hlease
            fun v' phase hv hphase => (howns t v' phase (hv ▸ hcurrent) hphase).1
          rw [hg]
          exact hs.drowsy u v hcall

/-! ### All runs -/

/-- **Nobody sleeps on a true predicate.** In every run, at every moment, with any faults: every
thread that sleeps un-notified sleeps in a visit that waits for a predicate, and this predicate is
false of the value, or some thread that has changed the value has not notified all sleepers since.
So when every thread that has changed the value has done so, every sleeper's predicate is false. -/
theorem asleep_on_false
    (h : (machine next).Observed debts (.ofCodes (new value) world codes) (fun _ => False) s owes) :
    (∀ t ∈ s.shared.monitor.sleepers, ∃ v p rest, s.stack t = .call (.visit v .asleep) :: rest ∧
      v.await = some p ∧ (p s.shared.monitor.value = .ok false ∨ ∃ u, owes u)) ∧
    ((∀ u, ¬ owes u) → ∀ t ∈ s.shared.monitor.sleepers, ∀ v phase rest p,
      s.stack t = .call (.visit v phase) :: rest → v.await = some p →
      p s.shared.monitor.value = .ok false) := by
  have hlulled : Lulled s owes := by
    refine h.invariant ⟨.nil, nofun, fun t v hcall => ?_⟩
      fun t choice s s' x hreach hs hstep => lulled_of_step hreach hs hstep
    obtain hnil | ⟨code, hcode⟩ := State.stack_ofCodes (s := .ofCodes (new value) world codes) rfl t
    · rw [current, hnil] at hcall
      cases hcall
    · rw [current, hcode] at hcall
      cases hcall
  refine ⟨fun t hmem => ?_, fun hnobody t hmem v phase rest p hstack hp => ?_⟩
  · obtain ⟨v, p, hcall, hp, hwhy⟩ := hlulled.sleepers t hmem
    obtain ⟨rest, hstack⟩ := exists_stack_of_current hcall
    exact ⟨v, p, rest, hstack, hp, hwhy⟩
  · obtain ⟨v', p', hcall, hp', hfalse | ⟨u, hu⟩⟩ := hlulled.sleepers t hmem
    · rw [current_of_stack hstack] at hcall
      cases hcall
      rw [hp] at hp'
      cases hp'
      exact hfalse
    · exact absurd hu (hnobody u)

/-! A run in which a thread falls asleep on the value zero, waiting for one, and another thread has
then made the value one and has still to notify. -/

/-- Makes the value one, and notifies everybody. -/
def setAndNotify : Script (Call Nat Nat) (Answer Nat) Unit Unit Unit := do
  let _ ← Script.ask (.visiting (Visit.plain fun n => (1, .ok n)))
  let _ ← Script.ask .notifyAll

/-- The state in which the two threads begin. -/
def waiterAndSetter : State (Script (Call Nat Nat) (Answer Nat) Unit Unit Unit) Unit
    (Guarded Nat) (Call Nat Nat) (Answer Nat) Unit :=
  .ofCodes (new 0) () [do let _ ← Script.ask (.visiting waitForOne), setAndNotify]

/-- The state in which the notification is still owed. -/
def setBeforeNotifying : State (Script (Call Nat Nat) (Answer Nat) Unit Unit Unit) Unit
    (Guarded Nat) (Call Nat Nat) (Answer Nat) Unit :=
  let m := machine (Script.next id)
  m.settle [(1, .go 0)] 4 (m.settle [(0, .go 0)] 40 waiterAndSetter)

theorem setBeforeNotifying_reach :
    (machine (Script.next id)).Reach waiterAndSetter setBeforeNotifying :=
  Machine.reach_settle _ _ (Machine.reach_settle _ _ .start)

theorem asleep_on_false_setBeforeNotifying :
    setBeforeNotifying.shared.monitor.sleepers = [0] ∧
      waitForOne.await.map (fun p => p setBeforeNotifying.shared.monitor.value) =
        some (.ok true) ∧
      ∃ owes, (machine (Script.next id)).Observed debts waiterAndSetter (fun _ => False)
        setBeforeNotifying owes ∧ ∃ u, owes u := by
  obtain ⟨owes, howes⟩ := setBeforeNotifying_reach.exists_observed debts fun _ => False
  refine ⟨rfl, rfl, owes, howes, ?_⟩
  by_contra hnobody
  have hfalse := (asleep_on_false howes).2 (fun u hu => hnobody ⟨u, hu⟩) 0 List.mem_cons_self
    waitForOne .asleep _ _ rfl rfl
  cases hfalse

end Guarded

end Offload
