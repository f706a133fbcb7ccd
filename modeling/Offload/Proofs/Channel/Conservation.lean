import Mathlib.Algebra.Order.Group.Multiset
import Mathlib.Tactic.Abel
import Offload.Proofs.Channel.Items
import Offload.Proofs.Scene
import Offload.Script

/-!
# Nothing is lost, doubled or reordered

In every run of any number of threads on one channel, with any hook and any finalizers, all
items that were ever added are at every moment the items that were ever removed, in the order
of their removal, followed by the items that are there. The equation is kept by every single
step (`conserved_of_step`), so neither calls nested in hooks and finalizers nor faults that
strike in them can break it.

What the removal means for whoever removed is kept as well. A pop answers with the item that
its thread removed last (`Taken`), and a thread has finalized what its clears removed up to
the items that its clears in progress still hold (`Settled`).

## Main result

* `conservation`: the equation, with what it says of pops, clears and producers.
-/

namespace Offload.Channel

variable {κ ω α ρ ν : Type}

/-! ### Histories -/

/-- The marks in an event. -/
def Event.marks : Event α ν → List (Mark α)
  | .mark m => [m]
  | .note _ => []

/-- The marks of a history. -/
def marksOf (history : List (Tid × Event α ν)) : List (Mark α) :=
  history.flatMap fun entry => entry.2.marks

/-- The marks that thread `t` has left. -/
def marksBy (t : Tid) (history : List (Tid × Event α ν)) : List (Mark α) :=
  marksOf (history.filter fun entry => entry.1 = t)

/-- The items that were added, each with the thread that pushed it. -/
def addedBy (history : List (Tid × Event α ν)) : List (Tid × α) :=
  history.flatMap fun entry => (added entry.2.marks).map (Prod.mk entry.1)

/-- The items that a mark hands to a pop. -/
def Mark.toPop : Mark α → List α
  | .popped item => [item]
  | .appended _ | .hooked | .cleared _ | .finalized _ => []

attribute [simp] Mark.toPop

/-- The items that pops have removed. -/
def popped (marks : List (Mark α)) : List α := marks.flatMap Mark.toPop

theorem marksOf_append (h h' : List (Tid × Event α ν)) :
    marksOf (h ++ h') = marksOf h ++ marksOf h' := by
  simp [marksOf]

theorem marksOf_map_mk (t : Tid) (events : List (Event α ν)) :
    marksOf (events.map (Prod.mk t)) = events.flatMap Event.marks := by
  simp [marksOf, List.flatMap_map]

theorem flatMap_marks (marks : List (Mark α)) :
    (marks.map (Event.mark : Mark α → Event α ν)).flatMap Event.marks = marks := by
  simp [List.flatMap_map, Event.marks]

@[simp] theorem marksOf_note (t : Tid) (note : ν) :
    marksOf [(t, (Event.note note : Event α ν))] = [] := by
  simp [marksOf, Event.marks]

/-- What a thread has left, after a step of its own. -/
theorem marksBy_append_self (t : Tid) (h : List (Tid × Event α ν)) (events : List (Event α ν)) :
    marksBy t (h ++ events.map (Prod.mk t)) = marksBy t h ++ marksOf (events.map (Prod.mk t)) := by
  have hall : (events.map (Prod.mk t)).filter (fun entry => entry.1 = t) =
      events.map (Prod.mk t) := by
    rw [List.filter_eq_self]
    simp
  rw [marksBy, List.filter_append, hall, marksOf_append, ← marksBy]

/-- What a thread has left, after a step of another one. -/
theorem marksBy_append_ne {t u : Tid} (hu : u ≠ t) (h : List (Tid × Event α ν))
    (events : List (Event α ν)) : marksBy t (h ++ events.map (Prod.mk u)) = marksBy t h := by
  have hnone : (events.map (Prod.mk u)).filter (fun entry => entry.1 = t) = [] := by
    rw [List.filter_eq_nil_iff]
    simp [hu]
  rw [marksBy, List.filter_append, hnone, List.append_nil, ← marksBy]

/-- A note leaves no mark. -/
theorem marksBy_append_note (t : Tid) (h : List (Tid × Event α ν)) (note : ν) :
    marksBy t (h ++ [(t, .note note)]) = marksBy t h := by
  have hnote : marksOf ([.note note].map (Prod.mk t)) = ([] : List (Mark α)) := marksOf_note t note
  rw [← List.append_nil (marksBy t h), ← hnote]
  exact marksBy_append_self t h [.note note]

/-- Removed items are the popped ones and the cleared ones. -/
theorem removed_perm (marks : List (Mark α)) :
    (removed marks).Perm (popped marks ++ cleared marks) := by
  induction marks with
  | nil => exact .nil
  | cons mark marks ih =>
      cases mark with
      | popped item => exact ih.cons item
      | cleared items =>
          exact (ih.append_left items).trans (List.perm_append_comm_assoc _ _ _)
      | appended _ | hooked | finalized _ => exact ih

/-- Without their producers, the items are those that marks have added. -/
theorem addedBy_map_snd (history : List (Tid × Event α ν)) :
    (addedBy history).map Prod.snd = added (marksOf history) := by
  induction history with
  | nil => rfl
  | cons entry history ih =>
      have hhead : addedBy (entry :: history) =
          (added entry.2.marks).map (Prod.mk entry.1) ++ addedBy history := by
        simp [addedBy]
      have hmarks : marksOf (entry :: history) = entry.2.marks ++ marksOf history := by
        simp [marksOf]
      have hsnd : Prod.snd ∘ Prod.mk entry.1 = (id : α → α) := rfl
      rw [hhead, hmarks, List.map_append, ih, List.map_map, hsnd, List.map_id, added_append]

/-! ### The library of a channel's calls -/

/-- The calls of a channel as a library. -/
def library (hook : Option κ) (finalizer : α → Option κ) :
    Library κ (Channel α) (Call α) (Answer α) ρ (Event α ν) where
  turn := turn hook finalizer
  resume := resume
  begins call := ∃ request : Request α, call = request.call
  notes event := ∃ note, event = .note note
  rooted _ := false

/-- Threads that use a channel make its calls. -/
theorem machine_fits (hook : Option κ) (finalizer : α → Option κ)
    (next : κ → Move κ ω (Request α) (Answer α) ρ ν) :
    (machine hook finalizer next).Fits (library hook finalizer) where
  turn_eq := rfl
  resume_eq := rfl
  begins _ _ _ h := Move.eq_of_map_eq_call h
  notes _ _ _ h := Move.eq_of_map_eq_note h

variable {hook : Option κ} {finalizer : α → Option κ} {t : Tid} {choice : Choice}
  {c c' : Channel α} {events : List (Event α ν)} {call : Call α}
  {r : Turn κ (Call α) (Answer α)} {s s' : Scene (Channel α) (Call α) (Event α ν)}

/-! ### The equation -/

/-- Whether the items that were added are the ones that were removed and the ones there are. -/
def Conserved (s : Scene (Channel α) (Call α) (Event α ν)) : Prop :=
  added (marksOf s.history) = removed (marksOf s.history) ++ s.shared.value

/-- Every step of a call either adds items at the back or removes some from the front. -/
theorem items_of_turn (h : turn hook finalizer t choice c call = some (c', events, r)) :
    (c'.value = c.value ++ added (events.flatMap Event.marks) ∧
        removed (events.flatMap Event.marks) = []) ∨
      (c.value = removed (events.flatMap Event.marks) ++ c'.value ∧
        added (events.flatMap Event.marks) = []) := by
  cases call with
  | push p =>
      obtain ⟨⟨c₁, marks, part⟩, hturn, heq⟩ := Option.map_eq_some_iff.mp h
      cases heq
      rw [flatMap_marks]
      exact .inl (Push.items_of_turn hturn)
  | pop p =>
      obtain ⟨⟨c₁, marks, part⟩, hturn, heq⟩ := Option.map_eq_some_iff.mp h
      cases heq
      rw [flatMap_marks]
      exact .inr (Pop.items_of_turn hturn)
  | size phase =>
      obtain ⟨⟨c₁, part⟩, hturn, heq⟩ := Option.map_eq_some_iff.mp h
      cases heq
      exact .inl (by simp [value_of_sizeTurn hturn])
  | clear p =>
      obtain ⟨⟨c₁, marks, part⟩, hturn, heq⟩ := Option.map_eq_some_iff.mp h
      cases heq
      rw [flatMap_marks]
      exact .inr (Clear.items_of_turn hturn)

/-- **Conservation, one step.** Whatever a thread does, the equation is kept. -/
theorem conserved_of_step (h : Scene.Step (library (ρ := ρ) hook finalizer) t s s')
    (hs : Conserved s) : Conserved s' := by
  cases h with
  | noted _ hnote =>
      obtain ⟨note, rfl⟩ := hnote
      rw [Conserved, marksOf_append, marksOf_note, List.append_nil]
      exact hs
  | called _ _ | resumed _ _ => exact hs
  | @turned call rest choice c' events r _ hturn =>
      rw [Conserved] at hs ⊢
      rw [marksOf_append, marksOf_map_mk, added_append, removed_append, hs]
      rcases items_of_turn hturn with ⟨hvalue, hremoved⟩ | ⟨hvalue, hadded⟩
      · rw [hvalue, hremoved, List.append_nil, List.append_assoc]
      · rw [hvalue, hadded, List.append_nil, List.append_assoc]

/-- Steps of other threads leave a thread's calls and its marks alone. -/
theorem marksBy_of_other {u : Tid} (h : Scene.Step (library (ρ := ρ) hook finalizer) u s s')
    (hu : t ≠ u) : s'.calls t = s.calls t ∧ marksBy t s'.history = marksBy t s.history := by
  obtain ⟨events, hevents⟩ := h.exists_events
  refine ⟨h.calls_ne hu, ?_⟩
  rw [hevents, marksBy_append_ne (Ne.symm hu)]

/-! ### What a pop answers -/

/-- The item that a call has popped and is about to answer with. -/
def Call.held : Call α → Option α
  | .pop p => p.held
  | .push _ | .size _ | .clear _ => none

/-- Whether thread `t` has left marks since it had left the marks `before`, the last of them
for the item that its active call holds; no other call of it holds an item. -/
structure Taken (t : Tid) (before : List (Mark α)) (s : Scene (Channel α) (Call α) (Event α ν)) :
    Prop where
  waiting_held : ∀ call ∈ (s.calls t).waiting, call.held = none
  active_held : ∃ since, marksBy t s.history = before ++ since ∧
    ∀ call, (s.calls t).active = some call → ∀ item, call.held = some item →
      since.getLast? = some (.popped item)

/-- A call that is part of a channel's call goes on as that part. -/
theorem next?_embed {γ β : Type} {wrap : γ → Call α} {answer : β → Answer α}
    {part : Channel α × List (Mark α) × Turn κ γ β}
    (h : embed wrap answer part = (c', events, r)) (hnext : r.next? = some call) :
    ∃ p, call = wrap p := by
  cases h
  rw [Turn.next?_within, Option.map_eq_some_iff] at hnext
  obtain ⟨p, -, rfl⟩ := hnext
  exact ⟨p, rfl⟩

/-- A call that holds an item after a step has popped it in that step or held it before, and
runs no code. -/
theorem held_of_turn {call' : Call α} {item : α}
    (h : turn hook finalizer t choice c call = some (c', events, r))
    (hnext : r.next? = some call') (hheld : call'.held = some item) :
    r = .stay call' ∧ (events.flatMap Event.marks = [.popped item] ∨
      (events.flatMap Event.marks = [] ∧ call.held = some item)) := by
  cases call with
  | pop p =>
      obtain ⟨⟨c₁, marks, part⟩, hturn, heq⟩ := Option.map_eq_some_iff.mp h
      cases heq
      rw [flatMap_marks]
      obtain ⟨-, hplain⟩ := Pop.turn_plain hturn
      cases part with
      | stay p' =>
          cases hnext
          refine ⟨rfl, ?_⟩
          rcases Pop.marks_of_turn hturn with ⟨-, rfl⟩ | ⟨item', again, -, -, rfl, heq⟩
          · exact .inr ⟨rfl, (Pop.held_of_turn hturn).trans hheld⟩
          · cases heq
            obtain rfl : item' = item := Option.some.inj hheld
            exact .inl rfl
      | run code p' => exact absurd rfl (hplain code p')
      | ret _ | fail _ | abort => cases hnext
  | push p | size phase | clear p =>
      obtain ⟨part, -, heq⟩ := Option.map_eq_some_iff.mp h
      obtain ⟨p', rfl⟩ := next?_embed heq hnext
      cases hheld

/-- A part's abort is the abort of the call that it is part of. -/
theorem abort_of_embed {γ β : Type} {wrap : γ → Call α} {answer : β → Answer α}
    {part : Channel α × List (Mark α) × Turn κ γ β}
    (h : embed wrap answer part = (c', events, .abort)) : part.2.2 = .abort := by
  obtain ⟨c₁, marks, part⟩ := part
  cases part with
  | abort => rfl
  | stay _ | run _ _ | ret _ | fail _ => cases h

/-- Only a broken clear aborts. -/
theorem broken_of_abort (h : turn hook finalizer t choice c call = some (c', events, .abort)) :
    call = .clear .broken := by
  cases call with
  | push p =>
      obtain ⟨part, hturn, heq⟩ := Option.map_eq_some_iff.mp h
      exact absurd (abort_of_embed heq) (Push.turn_live hturn)
  | pop p =>
      obtain ⟨part, hturn, heq⟩ := Option.map_eq_some_iff.mp h
      exact absurd (abort_of_embed heq) (Pop.turn_plain hturn).1
  | size phase =>
      obtain ⟨part, hturn, heq⟩ := Option.map_eq_some_iff.mp h
      exact absurd (abort_of_embed heq) (sizeTurn_live hturn)
  | clear p =>
      obtain ⟨part, hturn, heq⟩ := Option.map_eq_some_iff.mp h
      rw [Clear.broken_of_abort hturn (abort_of_embed heq)]

theorem held_call (request : Request α) : request.call.held = none := by
  cases request <;> rfl

theorem held_resume (call : Call α) (result : Except Fault ρ) :
    (resume call result).held = call.held := by
  cases call <;> rfl

/-- What a thread's calls hold is what the thread removed last, after a step of one of them. -/
theorem taken_of_turned {before : List (Mark α)} {rest : List (Call α)} (hs : Taken t before s)
    (hcalls : s.calls t = ⟨some call, rest⟩)
    (h : turn hook finalizer t choice s.shared call = some (c', events, r)) :
    Taken t before { shared := c', history := s.history ++ events.map (Prod.mk t),
                     calls := Function.update s.calls t (Calls.after call rest r) } := by
  obtain ⟨since, hsince, hactive⟩ := hs.active_held
  have hwaiting := hs.waiting_held
  rw [hcalls] at hwaiting
  have hmarks : marksBy t (s.history ++ events.map (Prod.mk t)) =
      before ++ (since ++ events.flatMap Event.marks) := by
    rw [marksBy_append_self, hsince, marksOf_map_mk, List.append_assoc]
  refine ⟨?_, since ++ events.flatMap Event.marks, hmarks, ?_⟩
  · simp only [Function.update_self]
    cases r with
    | run code call' =>
        have hcall' : call'.held = none := by
          by_contra hne
          obtain ⟨item, hheld⟩ := Option.ne_none_iff_exists'.mp hne
          cases (held_of_turn h rfl hheld).1
        simpa [Calls.after, hcall'] using hwaiting
    | stay _ | ret _ | fail _ | abort => exact hwaiting
  · simp only [Function.update_self]
    intro call' hcall' item hheld
    cases r with
    | stay call'' =>
        cases hcall'
        rcases (held_of_turn h rfl hheld).2 with hmarks | ⟨hmarks, hbefore⟩
        · rw [hmarks, List.getLast?_concat]
        · rw [hmarks, List.append_nil]
          exact hactive call (by rw [hcalls]) item hbefore
    | abort =>
        cases hcall'
        rw [broken_of_abort h] at hheld
        cases hheld
    | run _ _ | ret _ | fail _ => cases hcall'

/-- What a thread's calls hold is what the thread removed last, after every step. -/
theorem taken_of_step {u : Tid} {before : List (Mark α)}
    (h : Scene.Step (library (ρ := ρ) hook finalizer) u s s') (hs : Taken t before s) :
    Taken t before s' := by
  by_cases hu : t = u
  · subst hu
    obtain ⟨since, hsince, hactive⟩ := hs.active_held
    cases h with
    | noted hcode hnote =>
        obtain ⟨note, rfl⟩ := hnote
        refine ⟨hs.waiting_held, since, ?_, hactive⟩
        rw [marksBy_append_note, hsince]
    | called hcode hbegins =>
        obtain ⟨request, rfl⟩ := hbegins
        refine ⟨by simpa using hs.waiting_held, since, hsince, ?_⟩
        simp [held_call]
    | @resumed call rest result hcalls =>
        have hwaiting := hs.waiting_held
        rw [hcalls] at hwaiting
        have hcall : (resume call result).held = none := by
          rw [held_resume]
          exact hwaiting call (by simp)
        refine ⟨?_, since, hsince, ?_⟩
        · simpa using fun c hc => hwaiting c (by simp [hc])
        · simpa [library] using by simp [hcall]
    | turned hcalls hturn => exact taken_of_turned hs hcalls hturn
  · obtain ⟨hcalls, hmarks⟩ := marksBy_of_other h hu
    exact ⟨by rw [hcalls]; exact hs.waiting_held, by rw [hcalls, hmarks]; exact hs.active_held⟩

/-! ### What a clear finalizes -/

/-- The items that a call has cleared and whose finalizers it has yet to run. -/
def Call.due : Call α → List α
  | .clear p => p.due
  | .push _ | .pop _ | .size _ => []

/-- Whether thread `t` has finalized what its clears have removed, up to what they still hold
and what a broken one has lost. -/
def Settled (t : Tid) (s : Scene (Channel α) (Call α) (Event α ν)) : Prop :=
  ∃ lost, (cleared (marksBy t s.history)).Perm
      (finalized (marksBy t s.history) ++ (s.calls t).all.flatMap Call.due ++ lost) ∧
    (lost ≠ [] → .clear .broken ∈ (s.calls t).all)

/-- What a step removes by clearing is due afterwards, and what was due before is finalized. -/
theorem due_of_turn (h : turn hook finalizer t choice c call = some (c', events, r)) :
    call.due ++ cleared (events.flatMap Event.marks) =
      finalized (events.flatMap Event.marks) ++ r.next?.elim [] Call.due := by
  cases call with
  | clear p =>
      obtain ⟨⟨c₁, marks, part⟩, hturn, heq⟩ := Option.map_eq_some_iff.mp h
      cases heq
      rw [flatMap_marks, Turn.next?_within]
      have hdue := Clear.due_of_turn hturn
      cases hnext : part.next? with
      | none => simpa [Call.due, hnext] using hdue
      | some p' => simpa [Call.due, hnext] using hdue
  | push p =>
      obtain ⟨⟨c₁, marks, part⟩, hturn, heq⟩ := Option.map_eq_some_iff.mp h
      cases heq
      obtain ⟨hcleared, hfinalized⟩ := Push.clears_of_turn hturn
      rw [flatMap_marks, Turn.next?_within, hcleared, hfinalized]
      cases part.next? <;> rfl
  | pop p =>
      obtain ⟨⟨c₁, marks, part⟩, hturn, heq⟩ := Option.map_eq_some_iff.mp h
      cases heq
      obtain ⟨hcleared, hfinalized⟩ := Pop.clears_of_turn hturn
      rw [flatMap_marks, Turn.next?_within, hcleared, hfinalized]
      cases part.next? <;> rfl
  | size phase =>
      obtain ⟨⟨c₁, part⟩, hturn, heq⟩ := Option.map_eq_some_iff.mp h
      cases heq
      rw [Turn.next?_within]
      cases part.next? <;> rfl

theorem due_call (request : Request α) : request.call.due = [] := by
  cases request <;> rfl

/-- The end of a finalizer leaves what is due, unless the finalizer is the second to fail. -/
theorem due_resume (call : Call α) (result : Except Fault ρ) :
    (resume call result).due = call.due ∨ resume call result = .clear .broken := by
  cases call with
  | push p | pop p | size phase => exact .inl rfl
  | clear p =>
      cases p with
      | finalizing count rest fault =>
          cases result with
          | ok _ => exact .inl rfl
          | error _ =>
              cases fault with
              | none => exact .inl rfl
              | some _ => exact .inr rfl
      | taking phase | broken => cases result <;> exact .inl rfl

theorem resume_broken (result : Except Fault ρ) :
    resume (.clear .broken : Call α) result = .clear .broken := by
  cases result <;> rfl

/-- What a step removes and finalizes may be added to a thread's account. -/
theorem perm_of_due {before done due due' rest lost taken ended : List α}
    (hbefore : before.Perm (done ++ (due ++ rest) ++ lost))
    (hstep : due ++ taken = ended ++ due') :
    (before ++ taken).Perm (done ++ ended ++ (due' ++ rest) ++ lost) := by
  rw [← Multiset.coe_eq_coe] at hbefore ⊢
  have hsum : (due : Multiset α) + taken = ended + due' := by
    rw [Multiset.coe_add, hstep, Multiset.coe_add]
  simp only [← Multiset.coe_add] at hbefore ⊢
  calc (before : Multiset α) + taken = done + (due + taken) + rest + lost := by
        rw [hbefore]
        abel
    _ = done + ended + (due' + rest) + lost := by
        rw [hsum]
        abel

/-- A thread's clears keep their account when code has ended that ran for one of its calls: a
fault in a finalizer loses what the clear still holds. -/
theorem settled_of_resumed {rest : List (Call α)} (hs : Settled t s)
    (hcalls : s.calls t = ⟨none, call :: rest⟩) (result : Except Fault ρ) :
    Settled t (s.withCalls t ⟨some (resume call result), rest⟩) := by
  obtain ⟨lost, hperm, hlost⟩ := hs
  rw [hcalls] at hperm hlost
  rcases due_resume call result with hdue | hbroken
  · refine ⟨lost, ?_, fun hne => ?_⟩
    · simpa [Calls.all, hdue] using hperm
    · obtain rfl | hmem : .clear .broken = call ∨ .clear .broken ∈ rest := by
        simpa [Calls.all] using hlost hne
      · simp [Calls.all, resume_broken]
      · simp [Calls.all, hmem]
  · refine ⟨call.due ++ lost, ?_, fun _ => by simp [Calls.all, hbroken]⟩
    refine hperm.trans ?_
    have hgone : (Call.clear .broken : Call α).due = [] := rfl
    simp only [Calls.all, Scene.withCalls_history, Scene.withCalls_calls, Function.update_self,
      Option.toList_some, Option.toList_none, List.singleton_append, List.nil_append,
      List.flatMap_cons, hbroken, hgone]
    rw [← Multiset.coe_eq_coe]
    simp only [← Multiset.coe_add]
    abel

/-- A thread's clears keep their account after a step of one of its calls. -/
theorem settled_of_turned {rest : List (Call α)} (hs : Settled t s)
    (hcalls : s.calls t = ⟨some call, rest⟩)
    (h : turn hook finalizer t choice s.shared call = some (c', events, r)) :
    Settled t { shared := c', history := s.history ++ events.map (Prod.mk t),
                calls := Function.update s.calls t (Calls.after call rest r) } := by
  obtain ⟨lost, hperm, hlost⟩ := hs
  rw [hcalls] at hperm hlost
  by_cases habort : r = .abort
  · subst habort
    obtain rfl := broken_of_abort h
    cases h
    refine ⟨lost, ?_, ?_⟩
    · simpa [Calls.after] using hperm
    · simpa [Calls.after] using hlost
  · refine ⟨lost, ?_, fun hne => ?_⟩
    · rw [marksBy_append_self, marksOf_map_mk, cleared_append, finalized_append]
      simp only [Function.update_self, Calls.all_after habort]
      have hnext : r.next?.toList.flatMap Call.due = r.next?.elim [] Call.due := by
        cases r.next? <;> simp
      rw [List.flatMap_append, hnext]
      exact perm_of_due hperm (due_of_turn h)
    · simp only [Function.update_self, Calls.all_after habort]
      obtain rfl | hmem : .clear .broken = call ∨ .clear .broken ∈ rest := by
        simpa [Calls.all] using hlost hne
      · cases h
        exact absurd rfl habort
      · simp [hmem]

/-- A thread's clears keep their account after every step. -/
theorem settled_of_step {u : Tid} (h : Scene.Step (library (ρ := ρ) hook finalizer) u s s')
    (hs : Settled t s) : Settled t s' := by
  by_cases hu : t = u
  · subst hu
    cases h with
    | noted hcode hnote =>
        obtain ⟨lost, hperm, hlost⟩ := hs
        obtain ⟨note, rfl⟩ := hnote
        refine ⟨lost, ?_, hlost⟩
        rw [marksBy_append_note]
        exact hperm
    | called hcode hbegins =>
        obtain ⟨lost, hperm, hlost⟩ := hs
        obtain ⟨request, rfl⟩ := hbegins
        have hall : (s.calls t).all = (s.calls t).waiting := by
          rw [Calls.all, hcode.1]
          rfl
        rw [hall] at hperm hlost
        refine ⟨lost, ?_, fun hne => ?_⟩
        · simpa [Calls.all, due_call] using hperm
        · simpa [Calls.all] using .inr (hlost hne)
    | resumed result hcalls => exact settled_of_resumed hs hcalls result
    | turned hcalls hturn => exact settled_of_turned hs hcalls hturn
  · obtain ⟨hcalls, hmarks⟩ := marksBy_of_other h hu
    rw [Settled, hcalls, hmarks]
    exact hs

/-! ### All runs -/

section Runs

variable {next : κ → Move κ ω (Request α) (Answer α) ρ ν} {world : ω} {codes : List κ}

/-- A call that answers with an item holds it. -/
theorem held_of_answer {item : α}
    (h : turn hook finalizer t choice c call = some (c', events, .ret (.item (some item)))) :
    call.held = some item := by
  cases call with
  | pop p =>
      obtain ⟨⟨c₁, marks, part⟩, hturn, heq⟩ := Option.map_eq_some_iff.mp h
      cases part with
      | ret answer =>
          cases heq
          rcases Pop.marks_of_turn hturn with ⟨-, rfl⟩ | ⟨item', again, -, -, -, hr⟩
          · exact Pop.held_of_turn hturn
          · cases hr
      | stay _ | run _ _ | fail _ | abort => cases heq
  | push p | clear p =>
      obtain ⟨⟨c₁, marks, part⟩, -, heq⟩ := Option.map_eq_some_iff.mp h
      cases part <;> cases heq
  | size phase =>
      obtain ⟨⟨c₁, part⟩, -, heq⟩ := Option.map_eq_some_iff.mp h
      cases part <;> cases heq

/-- A pop that begins after a state takes its item after that state: nothing that was removed
before is answered again. -/
theorem removed_since {s s' : State κ ω (Channel α) (Call α) (Answer α) (Event α ν)}
    (h : (machine hook finalizer next).Reach (.ofCodes empty world codes) s)
    (h' : (machine hook finalizer next).Reach s s') {t : Tid} {item : α}
    (hcode : (callsOf (s.stack t)).active = none)
    (hanswer : (machine hook finalizer next).Answers s' t (.item (some item))) :
    ∃ since, marksBy t s'.history = marksBy t s.history ++ since ∧
      since.getLast? = some (.popped item) := by
  have hfits := machine_fits hook finalizer next
  obtain ⟨hlive', call, rest, choice, c', events, hstack, hturn⟩ := hanswer
  have hlive : s.aborted = false := by
    cases habort : s.aborted with
    | false => rfl
    | true => rw [← h'.eq_of_aborted habort, hlive'] at habort; cases habort
  obtain ⟨v, hv, hshows⟩ := hfits.reach_shows (Machine.shows_ofCodes (fun _ => rfl) _ _ _) h
  obtain ⟨v', hv', hshows'⟩ := hfits.reach_shows hshows h'
  have hstart : Taken t [] v := hv.invariant ⟨by simp, [], rfl, by simp⟩
    fun u s s' _ hs hstep => taken_of_step hstep hs
  have htaken : Taken t (marksBy t v.history) v' := by
    refine hv'.invariant ⟨hstart.waiting_held, [], (List.append_nil _).symm, ?_⟩
      fun u s s' _ hs hstep => taken_of_step hstep hs
    rw [hshows.calls_eq hlive, hcode]
    simp
  obtain ⟨since, hsince, hheld⟩ := htaken.active_held
  rw [hshows.history_eq, hshows'.history_eq] at hsince
  refine ⟨since, hsince, hheld call ?_ item (held_of_answer hturn)⟩
  rw [hshows'.calls_eq hlive', hstack, callsOf_call]

/-- What was finalized had been cleared, and not more often. -/
theorem finalized_subperm
    {s : State κ ω (Channel α) (Call α) (Answer α) (Event α ν)}
    (h : (machine hook finalizer next).Reach (.ofCodes empty world codes) s) (t : Tid) :
    (finalized (marksBy t s.history)).Subperm (cleared (marksBy t s.history)) ∧
      (s.aborted = false → .clear .broken ∉ (callsOf (s.stack t)).all →
        (cleared (marksBy t s.history)).Perm
          (finalized (marksBy t s.history) ++ (callsOf (s.stack t)).all.flatMap Call.due)) := by
  have hfits := machine_fits hook finalizer next
  obtain ⟨v, hv, hshows⟩ := hfits.reach_shows (Machine.shows_ofCodes (fun _ => rfl) _ _ _) h
  have hsettled : Settled t v := hv.invariant ⟨[], .nil, by simp⟩
    fun u s s' _ hs hstep => settled_of_step hstep hs
  obtain ⟨lost, hperm, hlost⟩ := hsettled
  rw [hshows.history_eq] at hperm
  constructor
  · rw [List.append_assoc] at hperm
    exact (List.sublist_append_left _ _).subperm.trans hperm.symm.subperm
  · intro hlive hwhole
    rw [hshows.calls_eq hlive] at hperm hlost
    have hnil : lost = [] := by
      by_contra hne
      exact hwhole (hlost hne)
    rwa [hnil, List.append_nil] at hperm

/-- **Conservation.** In every run, at every moment, with any hook and any finalizers:

* what was added is what was removed, in the order of removal, and then what is there;
* every item has been handed to a pop, or to a clear, or is there, exactly as often as it was
  added;
* what was removed of one producer's items are the first that the producer added, in order;
* a pop that answers with an item has removed it since the pop began;
* a thread has finalized what its clears removed, except for what they still hold, and nothing
  that they did not remove. -/
theorem conservation {s : State κ ω (Channel α) (Call α) (Answer α) (Event α ν)}
    (h : (machine hook finalizer next).Reach (.ofCodes empty world codes) s) :
    added (marksOf s.history) = removed (marksOf s.history) ++ s.shared.value ∧
      (added (marksOf s.history)).Perm
        (popped (marksOf s.history) ++ cleared (marksOf s.history) ++ s.shared.value) ∧
      (∃ origin : List (Tid × α), origin.map Prod.snd = removed (marksOf s.history) ∧
        ∀ producer, (origin.filter fun entry => entry.1 = producer) <+:
          (addedBy s.history).filter fun entry => entry.1 = producer) ∧
      (∀ s', (machine hook finalizer next).Reach s s' → ∀ t item,
        (callsOf (s.stack t)).active = none →
        (machine hook finalizer next).Answers s' t (.item (some item)) →
        ∃ since, marksBy t s'.history = marksBy t s.history ++ since ∧
          since.getLast? = some (.popped item)) ∧
      ∀ t, (finalized (marksBy t s.history)).Subperm (cleared (marksBy t s.history)) ∧
        (s.aborted = false → .clear .broken ∉ (callsOf (s.stack t)).all →
          (cleared (marksBy t s.history)).Perm
            (finalized (marksBy t s.history) ++ (callsOf (s.stack t)).all.flatMap Call.due)) := by
  have hfits := machine_fits hook finalizer next
  obtain ⟨v, hv, hshows⟩ := hfits.reach_shows (Machine.shows_ofCodes (fun _ => rfl) _ _ _) h
  have hitems : added (marksOf s.history) = removed (marksOf s.history) ++ s.shared.value := by
    rw [← hshows.history_eq, ← hshows.shared_eq]
    exact hv.invariant (P := Conserved) rfl fun t s s' _ hs hstep => conserved_of_step hstep hs
  refine ⟨hitems, ?_, ?_, fun s' h' t item => removed_since h h', finalized_subperm h⟩
  · rw [hitems]
    exact (removed_perm _).append_right _
  · -- the removed items are the first of those that were added
    refine ⟨(addedBy s.history).take (removed (marksOf s.history)).length, ?_, fun producer => ?_⟩
    · rw [List.map_take, addedBy_map_snd, hitems, List.take_left]
    · exact (List.take_prefix _ _).filter _

/-! A run in which one thread pushes two items and pops one. -/

/-- Pushes one and two, and pops once. -/
def pushTwoPopOne : Script (Request Nat) (Answer Nat) Unit Nat Unit :=
  Script.all (([.pushing 1, .pushing 2, .popping .never] : List (Request Nat)).map fun request => do
    let _ ← Script.ask request)

/-- The state in which `pushTwoPopOne` has ended. -/
def twoInOneOut : State (Script (Request Nat) (Answer Nat) Unit Nat Unit) Unit (Channel Nat)
    (Call Nat) (Answer Nat) (Event Nat Nat) :=
  (machine none (fun _ => none) (Script.next id)).settle [(0, .go 0)] 40
    (.ofCodes empty () [pushTwoPopOne])

theorem conservation_twoInOneOut :
    added (marksOf twoInOneOut.history) = [1, 2] ∧ removed (marksOf twoInOneOut.history) = [1] ∧
      twoInOneOut.shared.value = [2] ∧
      added (marksOf twoInOneOut.history) =
        removed (marksOf twoInOneOut.history) ++ twoInOneOut.shared.value :=
  ⟨rfl, rfl, rfl, (conservation (Machine.reach_settle [(0, .go 0)] 40 .start)).1⟩

end Runs

end Offload.Channel
