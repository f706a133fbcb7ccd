import Mathlib.Algebra.BigOperators.Group.Finset.Piecewise
import Offload.Proofs.Channel.Waking
import Offload.Proofs.Twins

/-!
# Every append has its call of the hook

On a channel with a hook, a thread that has added an item calls the hook before it leaves any other
mark: it makes its way from the critical section to the hook without running code. So the marks that
one thread leaves are **matched**, append by call, however deep its pushes are nested in each other,
in hooks and in finalizers. This is an invariant of one thread, kept by each of its steps
(`hookMatched_of_step`), and what the threads have called adds up.

## Main results

* `Matched.balance`, `Matched.of_append`: what matched marks say of their number and of their ends.
* `matched_of_reach`: the marks of every thread are matched in every state of every run.
* `hookCalls_of_reach`: the calls of the hook are the appends, less the pushes that have added their
  item and not yet called the hook.
-/

namespace Offload.Channel

variable {κ ω α ρ ν : Type} {t : Tid} {choice : Choice} {c c' : Channel α} {call : Call α}
  {events : List (Event α ν)} {r : Turn κ (Call α) (Answer α)} {code : κ} {finalizer : α → Option κ}

/-! ### Matched marks -/

/-- Whether a mark is that of a call of the hook. -/
def Mark.isHooked : Mark α → Bool
  | .hooked => true
  | .appended _ | .popped _ | .cleared _ | .finalized _ => false

/-- The number of calls of the hook. -/
def hookCalls (marks : List (Mark α)) : Nat :=
  marks.countP Mark.isHooked

@[simp] theorem hookCalls_nil : hookCalls ([] : List (Mark α)) = 0 := rfl

theorem hookCalls_append (marks marks' : List (Mark α)) :
    hookCalls (marks ++ marks') = hookCalls marks + hookCalls marks' :=
  List.countP_append

/-- Marks of one thread in which a call of the hook follows each item that is added, at once, and
nothing else is followed by one; if `owing`, the call for the last item is still to come. -/
inductive Matched : Bool → List (Mark α) → Prop where
  | nil : Matched false []
  | appended {marks : List (Mark α)} (item : α) :
      Matched false marks → Matched true (marks ++ [.appended item])
  | hooked {marks : List (Mark α)} : Matched true marks → Matched false (marks ++ [.hooked])
  | other {marks : List (Mark α)} (mark : Mark α) : mark.added = [] → mark ≠ .hooked →
      Matched false marks → Matched false (marks ++ [mark])

variable {owing owing' : Bool} {marks marks' : List (Mark α)}

/-- The calls of the hook are the appends, less the one whose call is still to come. -/
theorem Matched.balance (h : Matched owing marks) :
    hookCalls marks + owing.toNat = (added marks).length := by
  induction h with
  | nil => rfl
  | appended item _ ih | hooked _ ih =>
      simpa [hookCalls_append, added_append, hookCalls, Mark.isHooked] using ih
  | other mark hadded hne _ ih =>
      have hcalls : hookCalls [mark] = 0 := by
        cases mark with
        | hooked => exact absurd rfl hne
        | appended _ | popped _ | cleared _ | finalized _ => rfl
      rw [hookCalls_append, hcalls, added_append, added_singleton, hadded, List.append_nil]
      exact ih

/-- Whether a call is still to come shows in the marks. -/
theorem Matched.owing_eq (h : Matched owing marks) (h' : Matched owing' marks) :
    owing = owing' := by
  have hsum := h.balance.trans h'.balance.symm
  cases owing <;> cases owing' <;> simp at hsum ⊢

theorem Matched.append_nil (h : Matched owing marks) : Matched owing (marks ++ []) := by
  rwa [List.append_nil]

/-- **What comes after matched marks is matched** if all of it together is. -/
theorem Matched.of_append (h : Matched owing (marks ++ marks')) (hfirst : Matched false marks) :
    Matched owing marks' := by
  generalize hall : marks ++ marks' = all at h
  -- the last mark belongs to the second part, unless that is empty
  induction h generalizing marks' with
  | nil =>
      obtain ⟨-, rfl⟩ := List.append_eq_nil_iff.mp hall
      exact .nil
  | @appended before item hbefore ih =>
      obtain rfl | ⟨marks', mark, rfl⟩ := List.eq_nil_or_concat marks'
      · rw [List.append_nil] at hall
        cases hfirst.owing_eq (hall ▸ hbefore.appended item)
      · rw [List.concat_eq_append, ← List.append_assoc] at hall
        obtain ⟨hinit, hlast⟩ := List.append_inj' hall rfl
        cases hlast
        rw [List.concat_eq_append]
        exact (ih hinit).appended item
  | @hooked before hbefore ih =>
      obtain rfl | ⟨marks', mark, rfl⟩ := List.eq_nil_or_concat marks'
      · exact .nil
      · rw [List.concat_eq_append, ← List.append_assoc] at hall
        obtain ⟨hinit, hlast⟩ := List.append_inj' hall rfl
        cases hlast
        rw [List.concat_eq_append]
        exact (ih hinit).hooked
  | @other before mark hadded hne hbefore ih =>
      obtain rfl | ⟨marks', mark', rfl⟩ := List.eq_nil_or_concat marks'
      · exact .nil
      · rw [List.concat_eq_append, ← List.append_assoc] at hall
        obtain ⟨hinit, hlast⟩ := List.append_inj' hall rfl
        cases hlast
        rw [List.concat_eq_append]
        exact (ih hinit).other mark hadded hne

/-! ### Pushes that owe a call of the hook -/

/-- Whether a push has added its item and has yet to call the hook. -/
def Push.awaitsHook : Push α → Bool
  | .adding _ phase => phase.held.isSome
  | .notifying | .hooking => true
  | .ending _ => false

/-- Whether a call is a push that has added its item and has yet to call the hook. -/
def Call.awaitsHook : Call α → Bool
  | .push p => p.awaitsHook
  | .pop _ | .size _ | .clear _ => false

theorem awaitsHook_call (request : Request α) : request.call.awaitsHook = false := by
  cases request <;> rfl

/-- How a push that has come to its end answers. -/
def Push.answer : Except Fault Unit → Turn κ (Push α) Unit
  | .ok () => .ret ()
  | .error fault => .fail fault

/-- What one step of a push to a channel with hook `code` may be. -/
inductive Push.Turned (code : κ) (c c' : Channel α) :
    Push α → List (Mark α) → Turn κ (Push α) Unit → Prop where
  | arrived (item : α) :
      Turned code c c' (.adding item .arriving) [] (.stay (.adding item (.acting false)))
  | added (item : α) (again : Bool) : Turned code c c' (.adding item (.acting again))
      [.appended item] (.stay (.adding item (.leaving (.ok (some ())))))
  | neared {push push' : Push α} : push.awaitsHook = true → push'.awaitsHook = true →
      Turned code c c' push [] (.stay push')
  | called : c' = c → Turned code c c' .hooking [.hooked] (.run code .hooking)
  | ended (outcome : Except Fault Unit) : c' = c →
      Turned code c c' (.ending outcome) [] (Push.answer outcome)

/-- **Inversion.** Every step of a push is one of these. -/
theorem Push.turned_of_turn {push : Push α} {turn : Turn κ (Push α) Unit}
    (h : push.turn (some code) t choice c = some (c', marks, turn)) (hplain : push.IsPlain) :
    Push.Turned code c c' push marks turn := by
  cases push with
  | adding item phase =>
      obtain ⟨⟨c₁, progress⟩, hvisit, heq⟩ := Option.map_eq_some_iff.mp h
      cases heq
      obtain ⟨rfl, -, rfl⟩ | ⟨again, rfl, -, rfl⟩ | ⟨answer, rfl, -, rfl⟩ :=
        Visit.plain_cases hvisit hplain
      · exact .arrived item
      · exact .added item again
      · exact .neared rfl rfl
  | notifying =>
      cases h
      exact .neared rfl rfl
  | hooking =>
      cases h
      exact .called rfl
  | ending outcome =>
      cases outcome <;>
      · cases h
        exact .ended _ rfl

/-- A push adds its item, and then it calls the hook. -/
theorem Push.Turned.matched {push : Push α} {turn : Turn κ (Push α) Unit}
    (h : Push.Turned code c c' push marks' turn) (hmarks : Matched push.awaitsHook marks)
    (rest : List (Call α)) :
    Matched ((Calls.after (.push push) rest
      (turn.within Call.push (fun _ => .ret (Answer.done : Answer α)) .fail)).active.any
        Call.awaitsHook) (marks ++ marks') := by
  cases h with
  | arrived item => exact hmarks.append_nil
  | added item again => exact hmarks.appended item
  | @neared push push' howes howes' =>
      rw [howes] at hmarks
      have hafter : (Calls.after (.push push) rest ((Turn.stay push' : Turn κ (Push α) Unit).within
          Call.push (fun _ => .ret (Answer.done : Answer α)) .fail)).active.any Call.awaitsHook =
            true := howes'
      rw [hafter]
      exact hmarks.append_nil
  | called _ => exact hmarks.hooked
  | ended outcome _ => cases outcome <;> exact hmarks.append_nil

/-- A part that is no push's awaits no hook, wherever it goes on. -/
theorem awaitsHook_after {γ β : Type} {wrap : γ → Call α} {answer : β → Answer α}
    (hwrap : ∀ x, (wrap x).awaitsHook = false) (part : Turn κ γ β) (hcall : call.awaitsHook = false)
    (rest : List (Call α)) :
    (Calls.after call rest (part.within wrap (fun b => .ret (answer b)) .fail)).active.any
      Call.awaitsHook = false := by
  cases part with
  | stay x => exact hwrap x
  | abort => exact hcall
  | run _ _ | ret _ | fail _ => rfl

/-- **The marks of a thread stay matched** over a step of its active call. -/
theorem Call.matched_of_turn
    (h : turn (some code) finalizer t choice c call = some (c', events, r)) (hsound : call.IsSound)
    (hmarks : Matched call.awaitsHook marks) (rest : List (Call α)) :
    Matched ((Calls.after call rest r).active.any Call.awaitsHook)
      (marks ++ events.flatMap Event.marks) := by
  cases call with
  | push p =>
      obtain ⟨⟨c₁, marks', part⟩, hturn, heq⟩ := Option.map_eq_some_iff.mp h
      cases heq
      rw [flatMap_marks]
      exact (Push.turned_of_turn hturn hsound).matched hmarks rest
  | pop p =>
      obtain ⟨⟨c₁, marks', part⟩, hturn, heq⟩ := Option.map_eq_some_iff.mp h
      cases heq
      rw [flatMap_marks, awaitsHook_after (fun _ => rfl) part rfl]
      obtain ⟨-, rfl⟩ | ⟨item, -, -, -, rfl, -⟩ := Pop.marks_of_turn hturn
      · exact hmarks.append_nil
      · exact hmarks.other (.popped item) rfl (by rintro ⟨⟩)
  | size phase =>
      obtain ⟨⟨c₁, part⟩, -, heq⟩ := Option.map_eq_some_iff.mp h
      cases heq
      rw [awaitsHook_after (fun _ => rfl) part rfl]
      exact hmarks.append_nil
  | clear p =>
      obtain ⟨⟨c₁, marks', part⟩, hturn, heq⟩ := Option.map_eq_some_iff.mp h
      cases heq
      rw [flatMap_marks, awaitsHook_after (fun _ => rfl) part rfl]
      obtain ⟨-, rfl | ⟨item, rfl⟩⟩ | ⟨-, -, -, rfl, -⟩ := Clear.marks_of_turn hturn
      · exact hmarks.append_nil
      · exact hmarks.other (.finalized item) rfl (by rintro ⟨⟩)
      · exact hmarks.other (.cleared c.value) rfl (by rintro ⟨⟩)

/-- A step calls the hook exactly if it is that of a push that then waits for the hook. -/
theorem Call.hooked_iff
    (h : turn (some code) finalizer t choice c call = some (c', events, r)) (hsound : call.IsSound) :
    .mark .hooked ∈ events ↔ call = .push .hooking ∧ r = .run code (.push .hooking) := by
  cases call with
  | push p =>
      obtain ⟨⟨c₁, marks, part⟩, hturn, heq⟩ := Option.map_eq_some_iff.mp h
      cases heq
      cases Push.turned_of_turn hturn hsound with
      | called _ => exact ⟨fun _ => ⟨rfl, rfl⟩, fun _ => List.mem_singleton_self _⟩
      | arrived _ | added _ _ | neared _ _ => simp [Turn.within]
      | ended outcome _ => cases outcome <;> simp
  | pop p =>
      obtain ⟨⟨c₁, marks, part⟩, hturn, heq⟩ := Option.map_eq_some_iff.mp h
      cases heq
      obtain ⟨-, rfl⟩ | ⟨item, -, -, -, rfl, -⟩ := Pop.marks_of_turn hturn <;> simp
  | size phase =>
      obtain ⟨⟨c₁, part⟩, -, heq⟩ := Option.map_eq_some_iff.mp h
      cases heq
      simp
  | clear p =>
      obtain ⟨⟨c₁, marks, part⟩, hturn, heq⟩ := Option.map_eq_some_iff.mp h
      cases heq
      obtain ⟨-, rfl | ⟨item, rfl⟩⟩ | ⟨-, -, -, rfl, -⟩ := Clear.marks_of_turn hturn <;> simp

/-- A push that waits for code waits for the hook. -/
theorem hooking_of_run {code' : κ} {p : Push α} (hsound : call.IsSound)
    (h : turn (some code) finalizer t choice c call = some (c', events, .run code' (.push p))) :
    p = .hooking := by
  cases call with
  | push push =>
      obtain ⟨⟨c₁, marks', part⟩, hturn, heq⟩ := Option.map_eq_some_iff.mp h
      cases Push.turned_of_turn hturn hsound with
      | called _ =>
          cases heq
          rfl
      | arrived _ | added _ _ | neared _ _ => cases heq
      | ended outcome _ => cases outcome <;> cases heq
  | pop _ | clear _ =>
      obtain ⟨⟨c₁, marks', part⟩, -, heq⟩ := Option.map_eq_some_iff.mp h
      cases part <;> cases heq
  | size phase =>
      obtain ⟨⟨c₁, part⟩, -, heq⟩ := Option.map_eq_some_iff.mp h
      cases part <;> cases heq

/-! ### Scenes -/

variable {s s' : Scene (Channel α) (Call α) (Event α ν)}

/-- Whether the marks of thread `t` are matched in a scene; its pushes that wait for code wait for
the hook. -/
structure HookMatched (t : Tid) (s : Scene (Channel α) (Call α) (Event α ν)) : Prop where
  waiting : ∀ p, .push p ∈ (s.calls t).waiting → p = .hooking
  matched : Matched ((s.calls t).active.any Call.awaitsHook) (marksBy t s.history)

/-- A push that goes on after the hook owes no call any more. -/
theorem awaitsHook_resume {result : Except Fault ρ} (h : ∀ p, call = .push p → p = .hooking) :
    (resume call result).awaitsHook = false := by
  cases call with
  | push p =>
      obtain rfl := h p rfl
      rfl
  | pop _ | size _ | clear _ => rfl

/-- **The marks of a thread stay matched** over every step of every thread. -/
theorem hookMatched_of_step {u : Tid}
    (h : Scene.Step (library (ρ := ρ) (some code) finalizer) u s s')
    (hsound : ∀ call ∈ (s.calls t).all, call.IsSound) (hs : HookMatched t s) :
    HookMatched t s' := by
  by_cases hu : t = u
  · subst hu
    cases h with
    | noted _ hnote =>
        obtain ⟨note, rfl⟩ := hnote
        exact ⟨hs.waiting, by rw [marksBy_append_note]; exact hs.matched⟩
    | called hcode hbegins =>
        obtain ⟨request, rfl⟩ := hbegins
        have hmatched := hs.matched
        rw [hcode.1, Option.any_none] at hmatched
        refine ⟨by simpa using hs.waiting, ?_⟩
        simpa [awaitsHook_call] using hmatched
    | @resumed call rest result hcalls =>
        have hmatched := hs.matched
        have hwaiting := hs.waiting
        rw [hcalls] at hmatched hwaiting
        have hcall : (resume call result).awaitsHook = false :=
          awaitsHook_resume fun p hp => hwaiting p (hp ▸ List.mem_cons_self)
        refine ⟨?_, ?_⟩
        · simpa using fun p hp => hwaiting p (List.mem_cons_of_mem _ hp)
        · simpa [library, hcall] using hmatched
    | @turned call rest choice c' events r hcalls hturn =>
        have hmatched := hs.matched
        have hwaiting := hs.waiting
        have hcall : call.IsSound := hsound call (by rw [hcalls]; exact List.mem_cons_self)
        rw [hcalls] at hmatched hwaiting
        refine ⟨?_, ?_⟩
        · simp only [Function.update_self]
          cases r with
          | run code' call' =>
              intro p hp
              rcases List.mem_cons.mp hp with rfl | hp
              · exact hooking_of_run hcall hturn
              · exact hwaiting p hp
          | stay _ | ret _ | fail _ | abort => exact hwaiting
        · simp only [Function.update_self]
          rw [marksBy_append_self, marksOf_map_mk]
          exact Call.matched_of_turn hturn hcall hmatched rest
  · obtain ⟨hcalls, hmarks⟩ := marksBy_of_other h hu
    exact ⟨by rw [hcalls]; exact hs.waiting, by rw [hcalls, hmarks]; exact hs.matched⟩

/-! ### All runs -/

section Runs

variable {next : κ → Move κ ω (Request α) (Answer α) ρ ν} {world : ω} {codes : List κ}
  {hook : Option κ} {s : State κ ω (Channel α) (Call α) (Answer α) (Event α ν)}

/-- A run is not aborted, or its last step was that of a broken clear, which has changed nothing
but that everything has stopped. -/
theorem live_or_broken
    (h : (machine hook finalizer next).Reach (.ofCodes empty world codes) s) :
    s.aborted = false ∨ ∃ s₁ t rest, (machine hook finalizer next).Reach
      (.ofCodes empty world codes) s₁ ∧ s₁.aborted = false ∧
      s₁.stack t = .call (.clear .broken) :: rest ∧ s = (s₁.withStack t []).stopped true := by
  cases h with
  | start => exact .inl rfl
  | @step s₁ _ t choice hreach hstep =>
      obtain ⟨hlive, hstep⟩ := Machine.stepped_of_step hstep
      cases hstep with
      | ended _ _ | noted _ _ | acted _ | called _ _ => exact .inl hlive
      | @turned call rest c' events r aborted hstack hturn haborted =>
          cases aborted with
          | false => exact .inl rfl
          | true =>
              obtain rfl := haborted.mp rfl
              obtain rfl := broken_of_abort hturn
              cases hturn
              exact .inr ⟨s₁, t, rest, hreach, hlive, hstack, rfl⟩

/-- The calls of every thread of a run are in phases in which such calls can be. -/
theorem isSound_of_stack (h : (machine hook finalizer next).Reach (.ofCodes empty world codes) s)
    (hlive : s.aborted = false) {rest : Stack κ (Call α) (Answer α)}
    (hstack : s.stack t = .call call :: rest) : call.IsSound := by
  obtain ⟨v, hv, hshows⟩ := (machine_fits hook finalizer next).reach_shows
    (Machine.shows_ofCodes (fun _ => rfl) empty world codes) h
  refine isSound_of_reach hv t call ?_
  rw [hshows.calls_eq hlive, hstack, all_callsOf]
  exact List.mem_cons_self

/-- **Every append has its call of the hook**: in every state of every run the marks of every thread
are matched. -/
theorem matched_of_reach
    (h : (machine (some code) finalizer next).Reach (.ofCodes empty world codes) s) (t : Tid) :
    Matched ((callsOf (s.stack t)).active.any Call.awaitsHook) (marksBy t s.history) := by
  have hlive : ∀ s₁ : State κ ω (Channel α) (Call α) (Answer α) (Event α ν),
      (machine (some code) finalizer next).Reach (.ofCodes empty world codes) s₁ →
      s₁.aborted = false →
      Matched ((callsOf (s₁.stack t)).active.any Call.awaitsHook) (marksBy t s₁.history) := by
    intro s₁ h₁ hs₁
    obtain ⟨v, -, hshows, hmatched⟩ := (machine_fits (some code) finalizer next).exists_shows
      (P := HookMatched t) (Machine.shows_ofCodes (fun _ => rfl) empty world codes)
      ⟨nofun, .nil⟩
      (fun u v v' _ hv hP hstep => hookMatched_of_step hstep (isSound_of_reach hv t) hP) h₁
    have hthread := hmatched.matched
    rwa [hshows.calls_eq hs₁, hshows.history_eq] at hthread
  rcases live_or_broken h with hs | ⟨s₁, u, rest, h₁, hs₁, hstack, rfl⟩
  · exact hlive s h hs
  · have hbefore := hlive s₁ h₁ hs₁
    show Matched ((callsOf ((s₁.withStack u []).stack t)).active.any Call.awaitsHook)
      (marksBy t s₁.history)
    by_cases hu : t = u
    · subst hu
      rw [hstack] at hbefore
      rwa [State.stack_withStack_self _ (hstack ▸ List.cons_ne_nil _ _)]
    · rwa [State.stack_withStack_ne _ hu]

/-- What the threads have left, thread by thread, is what all of them have left. -/
theorem sum_marksBy {n : Nat} {f : List (Mark α) → Nat} (hnil : f [] = 0)
    (happend : ∀ marks marks', f (marks ++ marks') = f marks + f marks')
    {history : List (Tid × Event α ν)} (hthreads : ∀ entry ∈ history, entry.1 < n) :
    ∑ t ∈ Finset.range n, f (marksBy t history) = f (marksOf history) := by
  induction history with
  | nil => exact (Finset.sum_eq_zero fun _ _ => hnil).trans hnil.symm
  | cons entry history ih =>
      have hhead : ∀ t, f (marksBy t (entry :: history)) =
          (if t = entry.1 then f entry.2.marks else 0) + f (marksBy t history) := by
        intro t
        by_cases ht : t = entry.1
        · rw [if_pos ht, ← happend]
          simp [marksBy, marksOf, ht]
        · rw [if_neg ht, Nat.zero_add]
          simp [marksBy, marksOf, Ne.symm ht]
      have hall : marksOf (entry :: history) = entry.2.marks ++ marksOf history := rfl
      rw [Finset.sum_congr rfl fun t _ => hhead t, Finset.sum_add_distrib, Finset.sum_ite_eq',
        if_pos (Finset.mem_range.mpr (hthreads entry List.mem_cons_self)),
        ih fun entry' hmem => hthreads entry' (List.mem_cons_of_mem _ hmem), hall, happend]

/-- **The calls of the hook are the appends**, less the pushes that have added their item and have
yet to call the hook. -/
theorem hookCalls_of_reach
    (h : (machine (some code) finalizer next).Reach (.ofCodes empty world codes) s) :
    hookCalls (marksOf s.history) + activeCount s (fun _ => Call.awaitsHook) =
      (added (marksOf s.history)).length := by
  have hthreads := h.lt_of_mem_history rfl
  rw [← sum_marksBy hookCalls_nil hookCalls_append hthreads,
    ← sum_marksBy (f := fun marks => (added marks).length) rfl
      (fun marks marks' => by simp [added_append]) hthreads,
    activeCount, ← Finset.sum_add_distrib]
  exact Finset.sum_congr rfl fun t _ => (matched_of_reach h t).balance

end Runs

end Offload.Channel
