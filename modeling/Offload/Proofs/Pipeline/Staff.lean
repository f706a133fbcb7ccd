import Offload.Proofs.Pipeline.Gate

/-!
# The worker's tally

Of all calls one is the worker's, made by the worker's thread from its start to its end. At every
moment the tasks that the worker has taken are those whose bodies have begun and the one that it
has in hand; those whose bodies have begun are those whose bodies have returned, perhaps one that
was lost to a fault, and the one that runs; and those whose bodies have returned are those whose
results are published and the one whose result is next.

## Main results

* `tally_of_turn`: the tally, kept by the worker's own steps; other steps leave it alone.
* `staff_of_moved`: the worker's call and its tally, kept by every step of every thread.
* `Work.isSome_turn_of_hand`: a worker with a task in hand can go on.
-/

namespace Offload.Pipeline

variable {κ V E ν : Type} {plan : Plan κ} {t u : Tid} {choice : Choice}
  {s s' : Pipeline κ V E} {events : List (Event V E ν)} {call : Call κ V E}
  {r : Turn κ (Call κ V E) Answer} {history : List (Tid × Event V E ν)}

/-! ### Steps of other calls -/

/-- The worker that a part is. -/
def Part.working? : Part κ V E → Option (Work κ V E)
  | .working w => some w
  | .scheduling _ | .reading _ | .tearing _ | .other => none

theorem working?_of_isFresh {part : Part κ V E} (h : part.IsFresh) : part.working? = none := by
  cases h <;> rfl

theorem working?_resume (part : Part κ V E) (result : Except Fault (Except E V)) :
    (part.resume result).working? = part.working?.map (Work.resume result) := by
  cases part <;> rfl

/-- Only the worker's call is the worker. -/
theorem eq_work_of_working? {w : Work κ V E} (h : call.part.working? = some w) :
    call = .work w := by
  cases call with
  | work w' =>
      cases h
      rfl
  | inside use | handle use => cases use <;> cases h
  | opening _ | closing _ | taking _ | teardown _ => cases h

/-- Whether a step is none of the worker's. -/
structure Bystander (s s' : Pipeline κ V E) (events : List (Event V E ν)) : Prop where
  health_eq : s'.health = s.health
  busy_eq : s'.busy = s.busy
  source_ne : ∀ event ∈ events, event.source ≠ .work

theorem Bystander.of_source (source : Source) (hne : source ≠ .work)
    (hhealth : s'.health = s.health) (hbusy : s'.busy = s.busy)
    (h : ∀ event ∈ events, event.source = source) : Bystander s s' events := by
  refine ⟨hhealth, hbusy, fun event hevent => ?_⟩
  rw [h event hevent]
  exact hne

/-- A silent step. -/
theorem Bystander.silent (hhealth : s'.health = s.health) (hbusy : s'.busy = s.busy) :
    Bystander s s' ([] : List (Event V E ν)) :=
  ⟨hhealth, hbusy, by simp⟩

/-- **Other calls stand by.** A call that is not the worker's takes none of the worker's steps
and does not become the worker. -/
theorem bystander_of_turn (hsound : call.IsSound) (hpart : call.part.working? = none)
    (h : turn plan t choice s call = some (s', events, r)) :
    Bystander s s' events ∧ (nextPart r).working? = none := by
  have hproper := hsound.proper
  cases hcall : call.part with
  | working w =>
      rw [hcall] at hpart
      cases hpart
  | scheduling stage =>
      obtain ⟨r', hturn, hlift⟩ := turn_scheduling hcall h
      rw [hcall] at hproper
      have hstep := Schedule.turned_of_turn hturn
      refine ⟨.of_source .scheduling (by decide) (Schedule.frame_of_turn hstep).2.2.1 ?_ ?_, ?_⟩
      · cases hstep <;> rfl
      · rcases Schedule.pending_of_turn hstep hproper with ⟨-, rfl⟩ | ⟨ticket, task, -, -, rfl⟩
        · simp
        · simp [Event.source]
      · rw [hlift.nextPart_eq]
        cases r'.next? <;> rfl
  | tearing d =>
      obtain ⟨r', hturn, hlift⟩ := turn_tearing hcall h
      rw [hcall] at hproper
      have hstep := Teardown.turned_of_turn hturn
      refine ⟨.of_source .teardown (by decide) (Teardown.frame_of_turn hstep).2.1 ?_
        (Teardown.pending_of_turn hstep hproper).1, ?_⟩
      · cases hstep <;> rfl
      · rw [hlift.nextPart_eq]
        cases r'.next? <;> rfl
  | reading phase =>
      obtain ⟨intake, progress, -, rfl, rfl, -, -, hnext⟩ := turn_reading hcall h
      refine ⟨.silent rfl rfl, ?_⟩
      rw [hnext]
      cases progress <;> rfl
  | other =>
      obtain ⟨haside, -, hfresh⟩ | ⟨-, rfl, rfl, reporting, rfl⟩ := turn_other hcall hsound.opens h
      · exact ⟨.of_source .delivery (by decide) haside.health_eq haside.busy_eq haside.source_eq,
          working?_of_isFresh hfresh⟩
      · exact ⟨.silent rfl rfl, rfl⟩

/-! ### The tally -/

/-- Whether a fault has struck the worker, which may have ended of it. -/
def Failed (w : Option (Work κ V E)) (s : Pipeline κ V E) : Prop :=
  w.elim (∃ fault, s.health = .dead fault) fun w => w.hasFailed = true

/-- What the worker has done, where `w` is what it is doing unless it has ended. -/
structure Tally (w : Option (Work κ V E)) (s : Pipeline κ V E)
    (history : List (Tid × Event V E ν)) : Prop where
  health : w = none ↔ s.health ≠ .alive
  taken : reached .taken history = reached .begun history ++ w.elim [] Work.hand
  begun : ∃ lost, reached .begun history =
      reached .returned history ++ lost ++ w.elim [] Work.unreturned ∧
    lost.length ≤ 1 ∧ (lost ≠ [] → Failed w s)
  returned : reached .returned history = reached .published history ++ w.elim [] Work.unpublished

/-- Other steps leave the tally alone. -/
theorem tally_of_bystander {w : Option (Work κ V E)} (h : Bystander s s' events)
    (hw : Tally w s history) : Tally w s' (history ++ events.map (Prod.mk t)) := by
  have hreached : ∀ m : Milestone, m.source = .work →
      reached m (history ++ events.map (Prod.mk t)) = reached m history := by
    intro m hm
    rw [reached_append, ticketsAt_eq_nil_of_ne, List.append_nil]
    intro event hevent
    rw [hm]
    exact h.source_ne event hevent
  refine ⟨?_, ?_, ?_, ?_⟩
  · rw [h.health_eq]
    exact hw.health
  · rw [hreached .taken rfl, hreached .begun rfl]
    exact hw.taken
  · rw [hreached .begun rfl, hreached .returned rfl, Failed, h.health_eq]
    exact hw.begun
  · rw [hreached .returned rfl, hreached .published rfl]
    exact hw.returned

/-- When code has ended that the worker ran, the tally is as it was, except that the fault of a
body loses a task, and the worker fails. -/
theorem tally_resume {w : Work κ V E} (result : Except Fault (Except E V))
    (hw : Tally (some w) s history) : Tally (some (w.resume result)) s history := by
  have hhealth : some (w.resume result) = none ↔ s.health ≠ .alive :=
    ⟨nofun, fun hne => nomatch hw.health.mpr hne⟩
  cases w with
  | running ticket task =>
      cases result with
      | ok outcome => exact ⟨hhealth, hw.taken, hw.begun, hw.returned⟩
      | error fault =>
          refine ⟨hhealth, hw.taken, ?_, hw.returned⟩
          obtain ⟨lost, hbegun, -, hfailed⟩ := hw.begun
          have hnil : lost = [] := by
            by_contra hne
            cases hfailed hne
          refine ⟨[ticket], ?_, Nat.le_refl _, fun _ => rfl⟩
          rw [hbegun, hnil, List.append_nil]
          exact (List.append_nil _).symm
  | publishing p => cases p <;> exact ⟨hhealth, hw.taken, hw.begun, hw.returned⟩
  | popping _ | entering _ _ | starting _ _ | returning _ | resting | leaving | failing _
  | dying _ => exact hw

/-- A worker that a fault has struck goes on failing, or dies of it. -/
theorem failed_of_turn {w : Work κ V E} {r' : Turn κ (Work κ V E) Unit}
    (h : Work.Turned plan t choice s w s' events r') (hfailed : w.hasFailed = true) :
    Failed r'.next? s' ∧ ticketsAt .returned events = [] := by
  cases h with
  | failed fault => exact ⟨rfl, rfl⟩
  | died fault => exact ⟨⟨fault, rfl⟩, rfl⟩
  | popped | entered | began | returned | published | rested | left => cases hfailed

/-- The worker's own steps keep the tally. -/
theorem tally_of_turn {w : Work κ V E} {r' : Turn κ (Work κ V E) Unit}
    (h : Work.Turned plan t choice s w s' events r') (hproper : w.IsProper)
    (hw : Tally (some w) s history) :
    Tally r'.next? s' (history ++ events.map (Prod.mk u)) := by
  have halive : s.health = .alive := by
    by_contra hne
    cases hw.health.mpr hne
  refine ⟨?_, ?_, ?_, ?_⟩
  · rcases Work.health_of_turn h with ⟨⟨w', hnext, -⟩, hhealth⟩ | ⟨hnext, hend⟩
    · rw [hnext, hhealth, halive]
      exact ⟨nofun, fun hne => absurd rfl hne⟩
    · refine ⟨fun _ => ?_, fun _ => hnext⟩
      rcases hend with ⟨-, hhealth⟩ | ⟨fault, -, hhealth⟩ <;>
      · rw [hhealth]
        nofun
  · rw [reached_append, reached_append, hw.taken, List.append_assoc, List.append_assoc]
    exact congrArg _ (Work.hand_of_turn h)
  · obtain ⟨lost, hbegun, hone, hfailed⟩ := hw.begun
    refine ⟨lost, ?_, hone, fun hne => (failed_of_turn h (hfailed hne)).1⟩
    have hstep := Work.unreturned_of_turn h
    rw [reached_append, reached_append, hbegun, List.append_assoc]
    rw [show (some w).elim [] Work.unreturned = w.unreturned from rfl, hstep]
    -- a body that returns after a task was lost would come before it
    by_cases hne : lost = []
    · simp only [hne, List.append_nil, List.append_assoc]
    · rw [(failed_of_turn h (hfailed hne)).2]
      simp only [List.append_nil, List.nil_append]
  · rw [reached_append, reached_append, hw.returned, List.append_assoc, List.append_assoc]
    exact congrArg _ (Work.unpublished_of_turn h hproper)

/-! ### The worker's call -/

/-- Whether the outermost of a thread's calls is the worker, if the thread makes any. -/
def Bottomed (calls : List (Call κ V E)) : Prop :=
  ∀ last ∈ calls.getLast?, last.part.working?.isSome = true

theorem bottomed_nil : Bottomed ([] : List (Call κ V E)) := by
  intro last hlast
  cases hlast

theorem Bottomed.of_append {above rest : List (Call κ V E)} (h : Bottomed rest) (hne : rest ≠ []) :
    Bottomed (above ++ rest) := by
  intro last hlast
  rw [List.getLast?_append, List.getLast?_eq_some_getLast hne, Option.some_or] at hlast
  exact h last (by rw [List.getLast?_eq_some_getLast hne]; exact hlast)

theorem Bottomed.tail {rest : List (Call κ V E)} (h : Bottomed (call :: rest)) : Bottomed rest := by
  cases rest with
  | nil => exact bottomed_nil
  | cons call' rest =>
      intro last hlast
      refine h last ?_
      rwa [List.getLast?_cons_cons]

/-- Below a call that is not the worker there is the worker. -/
theorem Bottomed.below_ne_nil {rest : List (Call κ V E)} (h : Bottomed (call :: rest))
    (hcall : call.part.working? = none) : rest ≠ [] := by
  rintro rfl
  have hlast := h call rfl
  rw [hcall] at hlast
  cases hlast

theorem bottomed_singleton {w : Work κ V E} (h : call.part.working? = some w) :
    Bottomed [call] := by
  intro last hlast
  obtain rfl : call = last := Option.some.inj hlast
  rw [h]
  rfl

/-- Where the worker is not, there is nothing. -/
theorem Bottomed.eq_nil {calls : List (Call κ V E)} (h : Bottomed calls)
    (hpicks : picks Part.working? calls = []) : calls = [] := by
  by_contra hne
  have hlast := h _ (List.getLast?_eq_some_getLast hne)
  have hnone := List.filterMap_eq_nil_iff.mp hpicks _ (List.getLast_mem hne)
  rw [hnone] at hlast
  cases hlast

/-- What holds of the worker at every moment, where `w` is what it is doing unless it has ended:
its call is the only one of its kind and the outermost of its thread; while it waits for code it has
nothing in hand; and its tally is right. -/
structure Staff (w : Option (Work κ V E)) (v : View κ V E ν) : Prop where
  sole : Sole Part.working? workerThread w v.calls
  bottomed : Bottomed (v.calls workerThread).all
  waiting : ∀ w' ∈ picks Part.working? (v.calls workerThread).waiting, w'.hand = []
  tally : Tally w v.shared v.history

/-- A step of a call that is not the worker's leaves the worker where it is. -/
theorem Staff.of_other {v v' : View κ V E ν} {w : Option (Work κ V E)} {c : Calls (Call κ V E)}
    (hv : Staff w v) (hcalls : v'.calls = Function.update v.calls t c)
    (hpicks : picks Part.working? c.all = picks Part.working? (v.calls t).all)
    (hbottomed : t = workerThread → Bottomed c.all)
    (hwaiting : t = workerThread → ∀ w' ∈ picks Part.working? c.waiting, w'.hand = [])
    (htally : Tally w v'.shared v'.history) : Staff w v' := by
  refine ⟨?_, ?_, ?_, htally⟩
  · rw [hcalls]
    exact hv.sole.of_same hpicks
  · rw [hcalls]
    by_cases ht : workerThread = t
    · rw [ht, Function.update_self]
      exact hbottomed ht.symm
    · rw [Function.update_of_ne ht]
      exact hv.bottomed
  · rw [hcalls]
    by_cases ht : workerThread = t
    · rw [ht, Function.update_self]
      exact hwaiting ht.symm
    · rw [Function.update_of_ne ht]
      exact hv.waiting

/-- A step of the worker's call. -/
theorem Staff.of_worker {v v' : View κ V E ν} {w w' : Option (Work κ V E)}
    {c : Calls (Call κ V E)} (hv : Staff w v)
    (hcalls : v'.calls = Function.update v.calls workerThread c)
    (hpicks : picks Part.working? c.all = w'.toList) (hbottomed : Bottomed c.all)
    (hwaiting : ∀ w' ∈ picks Part.working? c.waiting, w'.hand = [])
    (htally : Tally w' v'.shared v'.history) : Staff w' v' := by
  refine ⟨?_, ?_, ?_, htally⟩
  · rw [hcalls]
    exact hv.sole.of_update hpicks
  · rw [hcalls, Function.update_self]
    exact hbottomed
  · rw [hcalls, Function.update_self]
    exact hwaiting

/-- The workers among the calls of a thread whose code has ended. -/
theorem picks_resume (call : Call κ V E) (rest : List (Call κ V E))
    (result : Except Fault (Except E V)) :
    picks Part.working? (Calls.all ⟨some (resume call result), rest⟩) =
      (call.part.working?.map (Work.resume result)).toList ++ picks Part.working? rest := by
  rw [Calls.all, Option.toList_some, List.singleton_append, picks_cons, part_resume,
    working?_resume]

/-- Code that ran for a call has ended: the worker after that. -/
theorem staff_of_resumed {v : View κ V E ν} {w : Option (Work κ V E)} {rest : List (Call κ V E)}
    (hv : Staff w v) (hwaits : v.calls t = ⟨none, call :: rest⟩)
    (result : Except Fault (Except E V)) :
    ∃ w', Staff w' (v.withCalls t ⟨some (resume call result), rest⟩) := by
  have hall : (v.calls t).all = call :: rest := by rw [hwaits]; rfl
  have hpicks := picks_resume call rest result
  cases hw : call.part.working? with
  | none =>
      rw [hw] at hpicks
      refine ⟨w, hv.of_other rfl ?_ (fun ht => ?_) (fun ht => ?_) hv.tally⟩
      · rw [hpicks, hall, picks_cons, hw]
        rfl
      · have hbottomed := hv.bottomed
        rw [← ht, hall] at hbottomed
        exact hbottomed.tail.of_append (hbottomed.below_ne_nil hw)
      · have hwaiting := hv.waiting
        rw [← ht, hwaits, picks_cons, hw] at hwaiting
        exact hwaiting
  | some w₀ =>
      obtain ⟨rfl, rfl, hnil⟩ := hv.sole.eq_of_active hall hw
      rw [hw, hnil] at hpicks
      have hbottomed := hv.bottomed
      rw [hall] at hbottomed
      obtain rfl := hbottomed.tail.eq_nil hnil
      refine ⟨some (w₀.resume result), hv.of_worker rfl hpicks ?_ (fun w' hw' => ?_)
        (tally_resume result hv.tally)⟩
      · refine bottomed_singleton (w := w₀.resume result) ?_
        rw [part_resume, working?_resume, hw]
        rfl
      · cases hw'

/-- What is picked out of the calls that wait after a turn waited before, or has run code. -/
theorem picks_waiting {β : Type} {f : Part κ V E → Option β} {rest : List (Call κ V E)} {b : β}
    (h : b ∈ picks f (Calls.after call rest r).waiting) :
    b ∈ picks f rest ∨ ∃ code call', r = .run code call' ∧ f call'.part = some b := by
  cases r with
  | run code call' =>
      rw [Calls.after, picks_cons, List.mem_append, Option.mem_toList] at h
      rcases h with hb | hb
      · exact .inr ⟨code, call', rfl, hb⟩
      · exact .inl hb
  | stay _ | ret _ | fail _ | abort => exact .inl h

/-- A call has made a step: the worker after that. -/
theorem staff_of_turned {v : View κ V E ν} {w : Option (Work κ V E)} {rest : List (Call κ V E)}
    (hv : Staff w v) (hactive : v.calls t = ⟨some call, rest⟩) (hsound : call.IsSound)
    (h : turn plan t choice v.shared call = some (s', events, r)) (hlive : r ≠ .abort) :
    ∃ w', Staff w' { shared := s', history := v.history ++ events.map (Prod.mk t),
                     calls := Function.update v.calls t (Calls.after call rest r) } := by
  have hall : (v.calls t).all = call :: rest := by rw [hactive]; rfl
  cases hw : call.part.working? with
  | none =>
      obtain ⟨hbystander, hnext⟩ := bystander_of_turn hsound hw h
      refine ⟨w, hv.of_other rfl ?_ (fun ht => ?_) (fun ht => ?_)
        (tally_of_bystander hbystander hv.tally)⟩
      · rw [picks_after rfl hlive, hnext, hall, picks_cons, hw]
      · have hbottomed := hv.bottomed
        rw [← ht, hall] at hbottomed
        rw [Calls.all_after hlive]
        exact hbottomed.tail.of_append (hbottomed.below_ne_nil hw)
      · intro w' hw'
        have hwaiting := hv.waiting
        rw [← ht, hactive] at hwaiting
        rcases picks_waiting hw' with hrest | ⟨code, call', rfl, hpart⟩
        · exact hwaiting w' hrest
        · rw [show nextPart (.run code call') = call'.part from rfl, hpart] at hnext
          cases hnext
  | some w₀ =>
      obtain ⟨rfl, rfl, hnil⟩ := hv.sole.eq_of_active hall hw
      obtain rfl := eq_work_of_working? hw
      have hbottomed := hv.bottomed
      rw [hall] at hbottomed
      obtain rfl := hbottomed.tail.eq_nil hnil
      obtain ⟨r', hturn, rfl⟩ := exists_of_nest h
      have hstep := Work.turned_of_turn hturn
      refine ⟨r'.next?, hv.of_worker rfl ?_ ?_ ?_ (tally_of_turn hstep hsound.proper hv.tally)⟩
      · rw [picks_after rfl hlive, hnil, List.append_nil]
        cases r' <;> rfl
      · rw [Calls.all_after hlive]
        cases r' with
        | stay w' | run code w' => exact bottomed_singleton (w := w') rfl
        | ret _ | fail _ | abort => exact bottomed_nil
      · intro w' hw'
        rcases picks_waiting hw' with hrest | ⟨code, call', hrun, hpart⟩
        · rw [hnil] at hrest
          cases hrest
        · cases r' with
          | run code' w'' =>
              cases hrun
              cases hpart
              exact Work.hand_of_run hstep
          | stay _ | ret _ | fail _ | abort => cases hrun

/-- **The worker, one step.** -/
theorem staff_of_moved {v v' : View κ V E ν} {w : Option (Work κ V E)}
    (h : Moved plan t v v') (hv : Staff w v) : ∃ w', Staff w' v' := by
  cases h with
  | still => exact ⟨w, hv⟩
  | noted note _ =>
      have hbystander : Bystander v.shared v.shared [(.note note : Event V E ν)] :=
        ⟨rfl, rfl, by simp [Event.source]⟩
      exact ⟨w, hv.sole, hv.bottomed, hv.waiting, tally_of_bystander hbystander hv.tally⟩
  | began request hcode =>
      have hfresh := working?_of_isFresh (isFresh_call request)
      have hall : (v.calls t).all = (v.calls t).waiting := by rw [Calls.all, hcode.1]; rfl
      refine ⟨w, hv.of_other rfl ?_ (fun ht => ?_) (fun ht => ?_) hv.tally⟩
      · rw [Calls.all, Option.toList_some, List.singleton_append, picks_cons, hfresh, hall]
        rfl
      · have hbottomed := hv.bottomed
        rw [← ht, hall] at hbottomed
        exact hbottomed.of_append (hcode.2 (by rw [ht]; rfl))
      · rw [ht]
        exact hv.waiting
  | resumed result hwaits => exact staff_of_resumed hv hwaits result
  | turned hactive hsound hturn hlive => exact staff_of_turned hv hactive hsound hturn hlive

/-- A worker with a task in hand can go on. -/
theorem Work.isSome_turn_of_hand {w : Work κ V E} (h : w.hand ≠ []) :
    (w.turn plan t choice s : Option
      (Pipeline κ V E × List (Event V E ν) × Turn κ (Work κ V E) Unit)).isSome = true := by
  cases w with
  | popping p =>
      cases hheld : p.phase.held with
      | none =>
          refine absurd ?_ h
          rw [hand, Channel.Pop.held, hheld]
          rfl
      | some answer =>
          rw [turn, Channel.Pop.turn, Phase.held_eq_some hheld]
          rfl
  | entering ticket task | starting ticket task => rfl
  | running _ _ | returning _ | publishing _ | resting | leaving | failing _ | dying _ =>
      exact absurd rfl h

end Offload.Pipeline
