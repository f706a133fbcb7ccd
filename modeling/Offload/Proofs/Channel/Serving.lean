import Offload.Proofs.Channel.Waking

/-!
# Consumers are served

The lock of a channel is never poisoned: no critical section of a channel fails, and hooks and
finalizers, which may, run without the lock. So every sleep of a consumer ends in another test, and
a consumer that has found an item still owns the lock when it takes the item. It cannot come out of
its critical section with nothing, and it gives up only when its time is over at a test that finds
no item.

## Main results

* `Pop.served_of_turn`: what one step of a pop does to what its phase says of the items.
* `serving_of_step`: the lock is sound and every consumer finds what its phase says; every step of
  every thread keeps this.
* `exists_expiry`: a consumer that gives up does so because its time is over, at a test.
* `consumers_served`: consumers take items that are there, answer with them, and give up only so.
-/

namespace Offload.Channel

variable {κ ω α ρ ν : Type} {t : Tid} {choice : Choice} {c c' : Channel α}
  {marks : List (Mark α)} {call : Call α} {events : List (Event α ν)}
  {r : Turn κ (Call α) (Answer α)} {hook : Option κ} {finalizer : α → Option κ}

/-! ### One step of a pop -/

/-- Whether the items are such as a consumer in this phase finds them: there is one when it is to
take one, and there is none when it gives up, which only a wait of limited time does. -/
def Pop.Served (items : List α) (pop : Pop α) : Prop :=
  pop.wait ≠ .never → match pop.phase with
    | .acting _ => items ≠ []
    | .leaving (.ok none) => pop.wait = .limited ∧ items = []
    | .leaving (.ok (some none)) | .leaving (.error _) => False
    | .arriving | .testing _ | .drowsy | .asleep | .overslept | .leaving (.ok (some (some _))) =>
      True

/-- What a pop finds matters only while it owns the lock. -/
theorem Pop.Served.of_idle {pop : Pop α} (h : pop.owns = false) (items : List α) :
    pop.Served items := by
  obtain ⟨wait, phase⟩ := pop
  intro _
  cases phase with
  | arriving | asleep | overslept => trivial
  | testing _ | drowsy | acting _ | leaving _ => cases h

/-- Only a wait of limited time expires. -/
theorem Pop.limited_visit {wait : Wait} (h : (Pop.visit wait : Visit (List α) _).limited = true) :
    wait = .limited := by
  cases wait with
  | limited => rfl
  | endless | never => cases h

/-- **Served, one step.** On a sound lock a pop goes on with items such as its next phase finds
them. -/
theorem Pop.served_of_turn {pop pop' : Pop α} {turn : Turn κ (Pop α) (Option α)}
    (hpoison : c.poisoned = false) (hserved : pop.Served c.value)
    (h : pop.turn t choice c = some (c', marks, turn)) (hnext : turn.next? = some pop') :
    pop'.Served c'.value := by
  obtain ⟨⟨c₁, progress⟩, hvisit, heq⟩ := Option.map_eq_some_iff.mp h
  obtain ⟨wait, phase⟩ := pop
  dsimp only at hvisit heq
  cases Visit.turned_of_turn hvisit with
  | arrived _ =>
      cases heq
      cases hnext
      intro hwait
      have hawait : (Pop.visit wait : Visit (List α) (Option α)).await = some ready := by
        rw [Pop.await_visit, if_neg hwait]
      simp [hawait]
  | @tested p again hp =>
      rw [Pop.await_visit] at hp
      split at hp
      · cases hp
      · cases hp
        cases heq
        cases hnext
        intro _
        cases hitems : c.value with
        | nil =>
            by_cases hgives : ((Pop.visit wait : Visit (List α) (Option α)).limited &&
                choice == .expire) = true
            · simp only [ready, Visit.afterTest, List.isEmpty_nil, Bool.not_true, hgives, if_true]
              exact ⟨Pop.limited_visit (Bool.and_eq_true_iff.mp hgives).1, trivial⟩
            · simp only [ready, Visit.afterTest, List.isEmpty_nil, Bool.not_true, hgives]
              trivial
        | cons item rest => exact List.cons_ne_nil item rest
  | untested again hnone =>
      cases heq
      cases hnext
      intro hwait
      rw [Pop.await_visit, if_neg hwait] at hnone
      cases hnone
  | slept | stirred _ | expired _ _ =>
      cases heq
      cases hnext
      exact .of_idle rfl _
  | woken _ _ | wokenLate _ =>
      rw [hpoison] at heq
      cases heq
      cases hnext
      exact fun _ => trivial
  | acted again =>
      rw [Pop.visit_body] at heq
      cases heq
      cases hnext
      intro hwait
      cases hitems : c.value with
      | nil => exact absurd hitems (hserved hwait)
      | cons item rest => trivial
  | left answer =>
      cases heq
      rcases answer with _ | _ | item
      · cases hnext
      · by_cases hwait : wait = .endless
        · simp only [afterVisit, hwait, if_true] at hnext
          cases hnext
          exact .of_idle rfl _
        · simp only [afterVisit, hwait, if_false] at hnext
          cases hnext
      · cases hnext
  | leftFaulted fault =>
      cases heq
      cases hnext

/-- A consumer gives up at a test that finds no item, when its time is over. -/
theorem Pop.expiry_of_turn {pop : Pop α} {wait : Wait} (hpoison : c.poisoned = false)
    (hwait : wait ≠ .never)
    (h : pop.turn (κ := κ) t choice c = some (c', marks, .stay ⟨wait, .leaving (.ok none)⟩)) :
    ∃ again, choice = .expire ∧ pop = ⟨wait, .testing again⟩ ∧ c.value = [] := by
  obtain ⟨⟨c₁, progress⟩, hvisit, heq⟩ := Option.map_eq_some_iff.mp h
  obtain ⟨wait', phase⟩ := pop
  dsimp only at hvisit heq
  cases progress with
  | ended outcome =>
      rcases outcome with fault | _ | _ | item
      · cases heq
      · cases heq
      · by_cases hendless : wait' = .endless
        · simp [afterVisit, hendless, Pop.start] at heq
        · simp [afterVisit, hendless] at heq
      · cases heq
  | on phase' =>
      obtain ⟨rfl, hphase⟩ : wait' = wait ∧ phase' = .leaving (.ok none) := by
        cases heq
        exact ⟨rfl, rfl⟩
      generalize hprogress : Progress.on phase' = progress at hvisit
      cases Visit.turned_of_turn hvisit with
      | @tested p again hp =>
          rw [Pop.await_visit, if_neg hwait] at hp
          cases hp
          cases hprogress
          refine ⟨again, ?_, rfl, ?_⟩
          · by_contra hgoes
            cases hitems : c.value <;> simp [ready, Visit.afterTest, hitems, hgoes] at hphase
          · cases hitems : c.value with
            | nil => rfl
            | cons item rest => simp [ready, Visit.afterTest, hitems] at hphase
      | acted again =>
          rw [Pop.visit_body] at hprogress
          cases hprogress
          cases hitems : c.value <;> simp [takeFront, hitems, Except.map] at hphase
      | arrived _ =>
          cases hprogress
          split at hphase <;> cases hphase
      | woken _ _ | wokenLate _ =>
          rw [hpoison] at hprogress
          cases hprogress
          cases hphase
      | untested _ _ | slept | stirred _ | expired _ _ =>
          cases hprogress
          cases hphase
      | left _ | leftFaulted _ => cases hprogress

/-- A call goes on as a pop only if it was one. -/
theorem Call.pop_of_turn {pop' : Pop α}
    (h : turn hook finalizer t choice c call = some (c', events, .stay (.pop pop'))) :
    ∃ pop marks, call = .pop pop ∧ pop.turn (κ := κ) t choice c = some (c', marks, .stay pop') := by
  cases call with
  | pop pop =>
      obtain ⟨⟨c₁, marks, part⟩, hturn, heq⟩ := Option.map_eq_some_iff.mp h
      cases part with
      | stay pop₁ =>
          cases heq
          exact ⟨pop, marks, rfl, hturn⟩
      | run _ _ | ret _ | fail _ | abort => cases heq
  | push p | clear p =>
      obtain ⟨⟨c₁, marks, part⟩, -, heq⟩ := Option.map_eq_some_iff.mp h
      cases part <;> cases heq
  | size phase =>
      obtain ⟨⟨c₁, part⟩, -, heq⟩ := Option.map_eq_some_iff.mp h
      cases part <;> cases heq

/-! ### One step of a thread -/

/-- No step poisons the lock, and the items change only under it. -/
theorem Nudged.frame (h : Nudged t c c' call r) :
    c'.poisoned = c.poisoned ∧ (c'.value ≠ c.value → call.owns = true) := by
  cases h with
  | calm hcalm => exact ⟨hcalm.poisoned_eq, hcalm.owns_of_ne⟩
  | roused _ _ _ hc' _ _ | slept _ hc' _ | notified _ _ hc' _ =>
      subst hc'
      exact ⟨rfl, fun hne => absurd rfl hne⟩

/-- Whether the lock is not poisoned, and every pop finds the items that its phase says. -/
structure Serving (v : Scene (Channel α) (Call α) (Event α ν)) : Prop where
  unpoisoned : v.shared.poisoned = false
  served : ∀ t pop, (v.calls t).active = some (.pop pop) → pop.Served v.shared.value

variable {v v' : Scene (Channel α) (Call α) (Event α ν)}

/-- A call that begins or goes on after code owns no lock, so it has found nothing yet. -/
theorem Serving.of_idle (hv : Serving v) {rest : List (Call α)} (howns : call.owns = false) :
    Serving (v.withCalls t ⟨some call, rest⟩) := by
  refine ⟨hv.unpoisoned, fun u pop hactive => ?_⟩
  rw [Scene.withCalls_calls] at hactive
  by_cases hu : u = t
  · subst hu
    rw [Function.update_self] at hactive
    cases hactive
    exact .of_idle howns _
  · rw [Function.update_of_ne hu] at hactive
    exact hv.served u pop hactive

/-- **Served, whoever makes the step.** -/
theorem serving_of_step (hheld : locks.Held v)
    (hsound : ∀ t, ∀ call ∈ (v.calls t).all, call.IsSound)
    (h : Scene.Step (library (ρ := ρ) hook finalizer) t v v') (hv : Serving v) : Serving v' := by
  cases h with
  | noted _ _ => exact ⟨hv.unpoisoned, hv.served⟩
  | called _ hbegins =>
      obtain ⟨request, rfl⟩ := hbegins
      exact hv.of_idle (by cases request <;> rfl)
  | @resumed call rest result hcalls =>
      have hwaiting := hheld.waiting t
      rw [hcalls] at hwaiting
      exact hv.of_idle (((locks_fits hook finalizer).resume _ result trivial).2
        (hwaiting call List.mem_cons_self) ())
  | @turned call rest choice c' events r hcalls hturn =>
      have hcall : call.IsSound := hsound t call (by rw [hcalls]; exact List.mem_cons_self)
      obtain ⟨hpoison, howns⟩ := (Call.nudged_of_turn hcall hv.unpoisoned hturn).frame
      refine ⟨hpoison.trans hv.unpoisoned, fun u pop hactive => ?_⟩
      by_cases hu : u = t
      · subst hu
        simp only [Function.update_self] at hactive
        by_cases habort : r = .abort
        · subst habort
          obtain rfl := broken_of_abort hturn
          cases hactive
        · obtain rfl : r = .stay (.pop pop) := by
            cases r with
            | stay call' =>
                cases hactive
                rfl
            | abort => exact absurd rfl habort
            | run _ _ | ret _ | fail _ => cases hactive
          obtain ⟨pop₀, marks, rfl, hpop⟩ := Call.pop_of_turn hturn
          exact Pop.served_of_turn hv.unpoisoned (hv.served u pop₀ (by rw [hcalls])) hpop rfl
      · simp only [Function.update_of_ne hu] at hactive
        cases hpop : pop.owns with
        | false => exact .of_idle hpop _
        | true =>
            -- this pop owns the lock, so thread `t` has left the items alone
            by_cases hsame : c'.value = v.shared.value
            · exact hsame ▸ hv.served u pop hactive
            · have howner : v.shared.owner = some t :=
                (hheld.owner_iff t ()).mpr (by rw [hcalls]; exact howns hsame)
              have howner' : v.shared.owner = some u :=
                (hheld.owner_iff u ()).mpr (by rw [hactive]; exact hpop)
              rw [howner] at howner'
              exact absurd (Option.some.inj howner').symm hu

/-! ### All runs -/

section Runs

variable {next : κ → Move κ ω (Request α) (Answer α) ρ ν} {world : ω} {codes : List κ}
  {s : State κ ω (Channel α) (Call α) (Answer α) (Event α ν)}

/-- Every state of a run shows a scene in which consumers are served. -/
theorem exists_serving (h : (machine hook finalizer next).Reach (.ofCodes empty world codes) s) :
    ∃ v, Machine.Shows (library (ρ := ρ) hook finalizer) v s ∧ locks.Held v ∧ Serving v := by
  have hlocks := locks_fits (ρ := ρ) (ν := ν) hook finalizer
  obtain ⟨v, hv, hshows, hkept⟩ := (machine_fits hook finalizer next).exists_shows
    (P := fun v => locks.Held v ∧ Serving v)
    (Machine.shows_ofCodes (fun _ => rfl) empty world codes)
    ⟨Locks.held_of_nobody (fun _ => rfl) [], rfl, nofun⟩
    (fun t v v' _ hv hP hstep =>
      ⟨Locks.held_of_step hlocks (fun _ _ _ => trivial) hstep hP.1,
        serving_of_step hP.1 (isSound_of_reach hv) hstep hP.2⟩) h
  exact ⟨v, hshows, hkept⟩

/-- **Served, in every run**, and after an abort as well. -/
theorem served_of_reach
    (h : (machine hook finalizer next).Reach (.ofCodes empty world codes) s) :
    s.shared.poisoned = false ∧ ∀ t pop rest, s.stack t = .call (.pop pop) :: rest →
      pop.Served s.shared.value := by
  rcases h.live_or_aborted rfl with hs | ⟨s₁, u, choice, call, below, events, h₁, hs₁, -, hturn,
    hended, hothers⟩
  · obtain ⟨v, hshows, -, hserving⟩ := exists_serving h
    rw [← hshows.shared_eq]
    refine ⟨hserving.unpoisoned, fun t pop rest hstack => hserving.served t pop ?_⟩
    rw [hshows.calls_eq hs, hstack, callsOf_call]
  · obtain ⟨v, hshows, -, hserving⟩ := exists_serving h₁
    obtain rfl := broken_of_abort hturn
    obtain ⟨hshared, -⟩ := Prod.mk.inj (Option.some.inj hturn)
    rw [← hshared, ← hshows.shared_eq]
    refine ⟨hserving.unpoisoned, fun t pop rest hstack => hserving.served t pop ?_⟩
    have ht : t ≠ u := by
      rintro rfl
      rw [hended] at hstack
      cases hstack
    rw [hshows.calls_eq hs₁, ← hothers t ht, hstack, callsOf_call]

/-- A consumer that has given up has made a test that found no item, when its time was over. -/
theorem exists_expiry {t : Tid} {wait : Wait} {rest : Stack κ (Call α) (Answer α)}
    (h : (machine hook finalizer next).Reach (.ofCodes empty world codes) s)
    (hwait : wait ≠ .never)
    (hstack : s.stack t = .call (.pop ⟨wait, .leaving (.ok none)⟩) :: rest) :
    ∃ s₀ s₁ again, (machine hook finalizer next).Reach (.ofCodes empty world codes) s₀ ∧
      s₀.stack t = .call (.pop ⟨wait, .testing again⟩) :: rest ∧ s₀.shared.value = [] ∧
      (machine hook finalizer next).step t .expire s₀ = some s₁ ∧
      s₁.stack t = .call (.pop ⟨wait, .leaving (.ok none)⟩) :: rest ∧
      (machine hook finalizer next).Reach s₁ s := by
  induction h with
  | start =>
      obtain hnil | ⟨code, hcode⟩ := State.stack_ofCodes (s := .ofCodes empty world codes) rfl t
      · cases hnil.symm.trans hstack
      · cases hcode.symm.trans hstack
  | @step s₁ s₂ u choice h₁ hstep ih =>
      by_cases hu : t = u
      · subst hu
        obtain ⟨v, hshows, hheld, hserving⟩ := exists_serving h₁
        have hlive := (Machine.stepped_of_step hstep).1
        have hcalls := hshows.calls_eq hlive t
        rcases Machine.origin_of_call (hshows.nested t) hstep hstack with
          ⟨position, k, below, -, hnext⟩ | ⟨position, call, result, hcode, heq⟩ |
          ⟨call, c', events, hcall, hturn⟩
        · obtain ⟨request, heq⟩ := Move.eq_of_map_eq_call hnext
          cases request <;> cases heq
        · -- a call that waits for code owns no lock
          rw [hcode, callsOf_code] at hcalls
          have hidle := (((locks_fits (ρ := ρ) (ν := ν) hook finalizer).resume call result
            trivial).2 (hheld.waiting t call (by rw [hcalls]; exact List.mem_cons_self))) ()
          have howns : (Call.pop ⟨wait, .leaving (.ok none)⟩ : Call α).owns = false := heq ▸ hidle
          cases howns
        · rw [hcall, callsOf_call] at hcalls
          obtain ⟨pop, marks, rfl, hpop⟩ := Call.pop_of_turn hturn
          obtain ⟨again, rfl, rfl, hvalue⟩ :=
            Pop.expiry_of_turn (hshows.shared_eq ▸ hserving.unpoisoned) hwait hpop
          exact ⟨s₁, s₂, again, h₁, hcall, hvalue, hstep, hstack, .start⟩
      · rw [Machine.stack_of_step_ne hstep hu] at hstack
        obtain ⟨s₀, s₀', again, h₀, hstack₀, hvalue, hstep₀, hstack₀', hlater⟩ := ih hstack
        exact ⟨s₀, s₀', again, h₀, hstack₀, hvalue, hstep₀, hstack₀', .step u choice hlater hstep⟩

/-- A consumer that is about to take an item can do so at once, and takes the front one. -/
theorem exists_taken {t : Tid} {wait : Wait} {again : Bool} {item : α} {items : List α}
    {rest : Stack κ (Call α) (Answer α)} (hlive : s.aborted = false)
    (hstack : s.stack t = .call (.pop ⟨wait, .acting again⟩) :: rest)
    (hitems : s.shared.value = item :: items) (choice : Choice) :
    ∃ s', (machine hook finalizer next).step t choice s = some s' ∧ s'.shared.value = items ∧
      s'.history = s.history ++ [(t, .mark (.popped item))] ∧
      s'.stack t = .call (.pop ⟨wait, .leaving (.ok (some (some item)))⟩) :: rest := by
  have hturn : (machine hook finalizer next).turn t choice s.shared (.pop ⟨wait, .acting again⟩) =
      some ({ s.shared with value := items }, [.mark (.popped item)],
        .stay (.pop ⟨wait, .leaving (.ok (some (some item)))⟩)) := by
    simp [machine, turn, Pop.turn, Visit.turn, Pop.visit_body, hitems, takeFront, embed,
      Visit.answer?, Except.map, Turn.within]
  obtain ⟨s', hstep, hshared, hhistory, hafter⟩ := Machine.exists_step_of_turn hlive hstack hturn
  exact ⟨s', hstep, by rw [hshared], hhistory, hafter⟩

/-- A consumer that has taken an item can answer at once, with this item. -/
theorem exists_answered {t : Tid} {wait : Wait} {item : α} {rest : Stack κ (Call α) (Answer α)}
    (hlive : s.aborted = false)
    (hstack : s.stack t = .call (.pop ⟨wait, .leaving (.ok (some (some item)))⟩) :: rest)
    (choice : Choice) :
    ∃ s', (machine hook finalizer next).step t choice s = some s' ∧
      s'.stack t = Machine.finishCall (.ok (.item (some item))) rest := by
  have hturn : (machine hook finalizer next).turn t choice s.shared
      (.pop ⟨wait, .leaving (.ok (some (some item)))⟩) =
        some (s.shared.release, [], .ret (.item (some item))) := rfl
  obtain ⟨s', hstep, -, -, hafter⟩ := Machine.exists_step_of_turn hlive hstack hturn
  exact ⟨s', hstep, hafter⟩

/-- What a consumer answers with, it leaves its critical section with. -/
theorem leaving_of_answers {t : Tid} {pop : Pop α} {answer : Option α}
    {rest : Stack κ (Call α) (Answer α)} (hwait : pop.wait ≠ .never)
    (hserved : pop.Served s.shared.value) (hstack : s.stack t = .call (.pop pop) :: rest)
    (h : (machine hook finalizer next).Answers s t (.item answer)) :
    pop.phase = .leaving (.ok (answer.map some)) := by
  obtain ⟨-, call, rest', choice, c', events, hstack', hturn⟩ := h
  rw [hstack] at hstack'
  cases hstack'
  obtain ⟨⟨c₁, marks, part⟩, hpart, heq⟩ := Option.map_eq_some_iff.mp hturn
  obtain ⟨⟨c₂, progress⟩, hvisit, hpop⟩ := Option.map_eq_some_iff.mp hpart
  cases progress with
  | on phase =>
      cases hpop
      cases heq
  | ended outcome =>
      have hphase := Visit.leaving_of_ended hvisit
      have hfinds := hserved hwait
      rw [hphase] at hfinds ⊢
      rcases outcome with fault | _ | _ | item
      · exact hfinds.elim
      · cases hpop
        cases heq
        rfl
      · exact hfinds.elim
      · cases hpop
        cases heq
        rfl

/-- **Consumers are served.** In every run, at every moment, with any hook and any finalizers, which
may fail at any time, the lock is not poisoned, and of every pop that is ready to wait:

* when it is to take an item there is one, and whatever the scheduler chooses, it takes the front
  one in its next step;
* when it has taken an item, it answers with this item in its next step;
* it never comes out of its critical section with nothing, and never fails;
* if it waits for as long as it takes, it answers with an item;
* if it answers with nothing, its wait was of limited time: its time was over at a test at which
  there was no item, and there is none when it answers. -/
theorem consumers_served (h : (machine hook finalizer next).Reach (.ofCodes empty world codes) s) :
    s.shared.poisoned = false ∧
      ∀ t wait phase rest, wait ≠ .never → s.stack t = .call (.pop ⟨wait, phase⟩) :: rest →
        (∀ again, phase = .acting again → ∃ item items, s.shared.value = item :: items ∧
          (s.aborted = false → ∀ choice, ∃ s',
            (machine hook finalizer next).step t choice s = some s' ∧ s'.shared.value = items ∧
            s'.history = s.history ++ [(t, .mark (.popped item))] ∧
            s'.stack t = .call (.pop ⟨wait, .leaving (.ok (some (some item)))⟩) :: rest)) ∧
        (∀ item, phase = .leaving (.ok (some (some item))) → s.aborted = false → ∀ choice, ∃ s',
          (machine hook finalizer next).step t choice s = some s' ∧
          s'.stack t = Machine.finishCall (.ok (.item (some item))) rest) ∧
        phase ≠ .leaving (.ok (some none)) ∧ (∀ fault, phase ≠ .leaving (.error fault)) ∧
        (∀ answer, (machine hook finalizer next).Answers s t (.item answer) → wait = .endless →
          ∃ item, answer = some item) ∧
        ((machine hook finalizer next).Answers s t (.item none) →
          wait = .limited ∧ s.shared.value = [] ∧
          ∃ s₀ s₁ again, (machine hook finalizer next).Reach (.ofCodes empty world codes) s₀ ∧
            s₀.stack t = .call (.pop ⟨wait, .testing again⟩) :: rest ∧ s₀.shared.value = [] ∧
            (machine hook finalizer next).step t .expire s₀ = some s₁ ∧
            s₁.stack t = .call (.pop ⟨wait, .leaving (.ok none)⟩) :: rest ∧
            (machine hook finalizer next).Reach s₁ s) := by
  obtain ⟨hpoison, hserved⟩ := served_of_reach h
  refine ⟨hpoison, fun t wait phase rest hwait hstack => ?_⟩
  have hfinds := hserved t ⟨wait, phase⟩ rest hstack
  refine ⟨?_, ?_, ?_, ?_, fun answer hanswer hendless => ?_, fun hanswer => ?_⟩
  · rintro again rfl
    obtain ⟨item, items, hitems⟩ := List.exists_cons_of_ne_nil (hfinds hwait)
    exact ⟨item, items, hitems, fun hlive => exists_taken hlive hstack hitems⟩
  · rintro item rfl hlive
    exact exists_answered hlive hstack
  · rintro rfl
    exact hfinds hwait
  · rintro fault rfl
    exact hfinds hwait
  · have hphase := leaving_of_answers hwait hfinds hstack hanswer
    cases answer with
    | some item => exact ⟨item, rfl⟩
    | none =>
        cases hphase
        cases hendless.symm.trans (hfinds hwait).1
  · cases leaving_of_answers hwait hfinds hstack hanswer
    exact ⟨(hfinds hwait).1, (hfinds hwait).2, exists_expiry h hwait hstack⟩

/-! A run in which a consumer sleeps while a producer pushes, and the hook of the push fails: the
consumer has been woken, has tested again, and is to take the item. -/

/-- The state in which the consumer is to take the item. -/
def wokenBesideFailure : State (Script (Request Nat) (Answer Nat) Unit Nat Unit) Unit (Channel Nat)
    (Call Nat) (Answer Nat) (Event Nat Nat) :=
  let m := machine (some (.fail .other)) (fun _ => none) (Script.next id)
  m.settle [(0, .go 0)] 2 <| m.settle [(1, .go 0)] 40 <| m.settle [(0, .go 0)] 40 <|
    .ofCodes empty () [popOne, pushTwo]

theorem consumers_served_wokenBesideFailure :
    wokenBesideFailure.stack 0 = .call (.pop ⟨.endless, .acting true⟩) ::
        (wokenBesideFailure.stack 0).tail ∧
      wokenBesideFailure.shared.poisoned = false ∧
      ∃ item items, wokenBesideFailure.shared.value = item :: items :=
  have hserved := consumers_served (Machine.reach_settle [(0, .go 0)] 2
    (Machine.reach_settle [(1, .go 0)] 40 (Machine.reach_settle [(0, .go 0)] 40 .start)))
  have ⟨item, items, hitems, _⟩ := (hserved.2 0 .endless (.acting true) _ nofun rfl).1 true rfl
  ⟨rfl, hserved.1, item, items, hitems⟩

end Runs

end Offload.Channel
