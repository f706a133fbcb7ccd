import Offload.Proofs.Pipeline.Delivery
import Offload.Proofs.Pipeline.Runs

/-!
# The register

A task passes through the pending channel, the worker, and the finished channel to the call that
delivers its result, and changes its shape twice on the way. The **register** holds the tasks in
the order of their tickets, as they were when they got them. Whatever goes under a ticket has the
callbacks of the task in the register; and a result that is in the finished channel or in flight is
what the body of its task has returned.

## Main results

* `registered_of_moved`: this, kept by every step of every thread; the register only grows.
* `exists_register`, `exists_later_register`: every reachable scene has a register, and what is
  reached from it has one that goes on from there.
-/

namespace Offload.Pipeline

variable {κ V E ν : Type} {plan : Plan κ} {t : Tid} {choice : Choice} {s s' : Pipeline κ V E}
  {events : List (Event V E ν)} {call : Call κ V E} {r : Turn κ (Call κ V E) Answer}
  {register register' : List (Task κ V E)} {history since : List (Tid × Event V E ν)}

/-! ### What stands in the register -/

/-- Whether an entry is a task as it stands in the register. -/
def Entry.IsIn (register : List (Task κ V E)) : Entry κ V E → Prop
  | .run ticket task => register[ticket]? = some task
  | .stop => True

/-- Whether a finished task has the callbacks of the task in the register. -/
def HasCallbacks (register : List (Task κ V E)) (f : Finished κ V E) : Prop :=
  ∃ task, register[f.ticket]? = some task ∧ f.onValue = task.onValue ∧ f.onError = task.onError

/-- Whether a finished task is what the body of the task in the register has returned. -/
structure IsResult (register : List (Task κ V E)) (history : List (Tid × Event V E ν))
    (f : Finished κ V E) : Prop where
  callbacks : HasCallbacks register f
  returned : (workerThread, .returned f.ticket f.outcome) ∈ history

/-- Whether what the worker is at stands in the register. -/
def Work.IsIn (register : List (Task κ V E)) (history : List (Tid × Event V E ν)) :
    Work κ V E → Prop
  | .popping p => ∀ entry ∈ p.held, entry.IsIn register
  | .entering ticket task | .starting ticket task | .running ticket task =>
      register[ticket]? = some task
  | .returning f => HasCallbacks register f
  | .publishing p => ∀ f ∈ p.ahead, IsResult register history f
  | .resting | .leaving | .failing _ | .dying _ => True

/-- Whether what a part is at stands in the register. -/
def Part.IsIn (register : List (Task κ V E)) (history : List (Tid × Event V E ν)) :
    Part κ V E → Prop
  | .scheduling stage => ∀ entry ∈ stage.ahead, entry.IsIn register
  | .working w => w.IsIn register history
  | .reading _ | .tearing _ | .other => True

/-- Whether what a call is at stands in the register. -/
structure Call.IsIn (register : List (Task κ V E)) (history : List (Tid × Event V E ν))
    (call : Call κ V E) : Prop where
  part : call.part.IsIn register history
  flight : ∀ f ∈ call.flight?, IsResult register history f

/-! ### The register grows -/

theorem getElem?_of_prefix (h : register <+: register') {ticket : Ticket} {task : Task κ V E}
    (htask : register[ticket]? = some task) : register'[ticket]? = some task := by
  obtain ⟨more, rfl⟩ := h
  obtain ⟨hlt, -⟩ := List.getElem?_eq_some_iff.mp htask
  rw [List.getElem?_append_left hlt, htask]

theorem Entry.IsIn.later {entry : Entry κ V E} (hentry : entry.IsIn register)
    (h : register <+: register') : entry.IsIn register' := by
  cases entry with
  | run ticket task => exact getElem?_of_prefix h hentry
  | stop => trivial

theorem HasCallbacks.later {f : Finished κ V E} (hf : HasCallbacks register f)
    (h : register <+: register') : HasCallbacks register' f := by
  obtain ⟨task, htask, hcallbacks⟩ := hf
  exact ⟨task, getElem?_of_prefix h htask, hcallbacks⟩

theorem IsResult.later {f : Finished κ V E} (hf : IsResult register history f)
    (h : register <+: register') : IsResult register' (history ++ since) f :=
  ⟨hf.callbacks.later h, List.mem_append_left _ hf.returned⟩

theorem Work.IsIn.later {w : Work κ V E} (hw : w.IsIn register history)
    (h : register <+: register') : w.IsIn register' (history ++ since) := by
  cases w with
  | popping p => exact fun entry hentry => (hw entry hentry).later h
  | entering _ _ | starting _ _ | running _ _ => exact getElem?_of_prefix h hw
  | returning f => exact HasCallbacks.later hw h
  | publishing p => exact fun f hf => (hw f hf).later h
  | resting | leaving | failing _ | dying _ => trivial

theorem Part.IsIn.later {part : Part κ V E} (hpart : part.IsIn register history)
    (h : register <+: register') : part.IsIn register' (history ++ since) := by
  cases part with
  | scheduling stage => exact fun entry hentry => (hpart entry hentry).later h
  | working w => exact Work.IsIn.later hpart h
  | reading _ | tearing _ | other => trivial

theorem Call.IsIn.later (hcall : call.IsIn register history) (h : register <+: register') :
    call.IsIn register' (history ++ since) :=
  ⟨hcall.part.later h, fun f hf => (hcall.flight f hf).later h⟩

/-- A call at its beginning is at nothing yet. -/
theorem isIn_call (request : Request κ V E) : request.call.IsIn register history := by
  refine ⟨?_, fun f hf => ?_⟩
  · cases request with
    | handing job =>
        intro entry hentry
        cases hentry
    | scheduling _ | draining _ | awaiting _ | countingPending | countingFinished | askingBusy
    | askingAccepting | taking _ => trivial
  · rw [flight?_call] at hf
    cases hf

/-- A call that has run code is at what it was at, or at the result of the body that has ended. -/
theorem isIn_resume (hcall : call.IsIn register history) (result : Except Fault (Except E V)) :
    (resume call result).IsIn register history := by
  obtain ⟨hpart, hflight⟩ := hcall
  constructor
  · rw [part_resume]
    cases hp : call.part with
    | scheduling stage =>
        rw [hp] at hpart
        cases stage with
        | dropped outcome => cases outcome <;> exact hpart
        | checking _ | entering _ | deciding _ | pushing _ | leaving _ | dropping _ _ =>
            exact hpart
    | working w =>
        rw [hp] at hpart
        cases w with
        | running ticket task =>
            cases result with
            | ok outcome => exact ⟨task, hpart, rfl, rfl⟩
            | error fault => trivial
        | publishing p => cases p <;> exact hpart
        | popping _ | entering _ _ | starting _ _ | returning _ | resting | leaving | failing _
        | dying _ => exact hpart
    | reading _ | tearing _ | other => trivial
  · intro f hf
    rcases flight?_resume call result with hnone | hsame
    · rw [hnone] at hf
      cases hf
    · rw [hsame] at hf
      exact hflight f hf

/-! ### One step of a call -/

/-- Whether what the channels hold stands in the register, which holds a task for each ticket. -/
structure Filed (register : List (Task κ V E)) (s : Pipeline κ V E)
    (history : List (Tid × Event V E ν)) : Prop where
  length : register.length = s.nextTicket
  pending : ∀ entry ∈ s.pending.value, entry.IsIn register
  finished : ∀ f ∈ s.finished.value, IsResult register history f

/-- A step that gives no ticket keeps the register, if all that is in the channels then was in the
register before. -/
theorem Filed.later (hs : Filed register s history) (hnext : s'.nextTicket = s.nextTicket)
    (hpending : ∀ entry ∈ s'.pending.value, entry ∈ s.pending.value ∨ entry.IsIn register)
    (hfinished : ∀ f ∈ s'.finished.value, f ∈ s.finished.value ∨ IsResult register history f) :
    Filed register s' (history ++ since) := by
  refine ⟨hs.length.trans hnext.symm, fun entry hentry => ?_, fun f hf => ?_⟩
  · exact (hpending entry hentry).elim (hs.pending entry) id
  · exact IsResult.later ((hfinished f hf).elim (hs.finished f) id) List.prefix_rfl

/-- A scheduling writes its task into the register in the step in which it gets the ticket. -/
theorem filed_scheduling {stage : Schedule κ V E}
    {r' : Turn κ (Schedule κ V E) (Except Failure Unit)}
    (h : Schedule.Turned t choice s stage s' events r') (hproper : stage.IsProper)
    (hs : Filed register s history)
    (hstage : (Part.scheduling stage).IsIn register history) :
    ∃ register', register <+: register' ∧ Filed register' s' (history ++ since) ∧
      ∀ stage', r'.next? = some stage' →
        (Part.scheduling stage').IsIn register' (history ++ since) := by
  have hpending : ∀ entry ∈ s'.pending.value, entry ∈ s.pending.value ∨ entry.IsIn register := by
    intro entry hentry
    rcases Schedule.pending_of_turn h hproper with ⟨hvalue, -⟩ | ⟨ticket, task, hahead, hvalue, -⟩
    · exact .inl (hvalue ▸ hentry)
    · rw [hvalue, List.mem_append, List.mem_singleton] at hentry
      refine hentry.imp_right fun heq => ?_
      rw [heq]
      exact hstage _ hahead
  have hfinished : ∀ f ∈ s'.finished.value, f ∈ s.finished.value ∨ IsResult register history f := by
    rw [(Schedule.frame_of_turn h).2.1]
    exact fun f hf => .inl hf
  have hkeep : s'.nextTicket = s.nextTicket →
      (∀ stage', r'.next? = some stage' → ∀ entry ∈ stage'.ahead, stage.ahead = some entry) →
      ∃ register', register <+: register' ∧ Filed register' s' (history ++ since) ∧
        ∀ stage', r'.next? = some stage' →
          (Part.scheduling stage').IsIn register' (history ++ since) := fun hnext hahead =>
    ⟨register, List.prefix_rfl, hs.later hnext hpending hfinished,
      fun stage' hstage' entry hentry => hstage entry (hahead stage' hstage' entry hentry)⟩
  cases h with
  | passed _ _ hpassed _ | left _ _ _ hpassed _ _ =>
      refine hkeep rfl fun stage' hnext entry hentry => ?_
      rw [(hpassed stage' hnext).2.1] at hentry
      cases hentry
  | entered | refused | pushedOver =>
      refine hkeep rfl ?_
      rintro stage' ⟨⟩ entry hentry
      cases hentry
  | pushedOn hpush =>
      refine hkeep rfl ?_
      rintro stage' ⟨⟩ entry hentry
      exact (Channel.Push.ahead_of_next hpush hproper.1 rfl hentry).1
  | admitted task =>
      refine ⟨register ++ [task], List.prefix_append _ _, ⟨?_, fun entry hentry => ?_,
        fun f hf => ?_⟩, ?_⟩
      · rw [List.length_append, hs.length]
        rfl
      · exact (hs.pending entry hentry).later (List.prefix_append _ _)
      · exact (hs.finished f hf).later (List.prefix_append _ _)
      · rintro stage' ⟨⟩ entry hentry
        obtain rfl : Entry.run s.nextTicket task = entry := Option.some.inj hentry
        rw [Entry.IsIn, ← hs.length, List.getElem?_concat_length]

/-- A teardown adds nothing to the channels but the entry that ends the worker. -/
theorem filed_tearing {d : Teardown κ V E} {r' : Turn κ (Teardown κ V E) (Except Failure Unit)}
    (h : Teardown.Turned t choice s d s' events r') (hproper : d.stage.IsProper)
    (hs : Filed register s history) : Filed register s' (history ++ since) := by
  obtain ⟨hfinished, -, hnext, -⟩ := Teardown.frame_of_turn h
  refine hs.later hnext (fun entry hentry => ?_) fun f hf => .inl (hfinished ▸ hf)
  cases h with
  | claimed | closing | closed | cleared | rested | joined | counting => exact .inl hentry
  | clearing _ hclear =>
      rcases Teardown.clear_cases ν hclear with ⟨hvalue, -⟩ | ⟨hvalue, -, -⟩
      · exact .inl (hvalue ▸ hentry)
      · have hnil : entry ∈ ([] : List (Entry κ V E)) := hvalue ▸ hentry
        cases hnil
  | stopping hstage hpush =>
      rw [hstage] at hproper
      rcases Teardown.stop_cases ν hpush hproper.2 with ⟨hvalue, -⟩ | ⟨-, hvalue, -⟩
      · exact .inl (hvalue ▸ hentry)
      · have hor : entry ∈ s.pending.value ++ [.stop] := hvalue ▸ hentry
        rw [List.mem_append, List.mem_singleton] at hor
        refine hor.imp_right fun heq => ?_
        rw [heq]
        trivial

/-- The worker passes on what it takes, and publishes what has returned. -/
theorem filed_working {w : Work κ V E} {r' : Turn κ (Work κ V E) Unit}
    (h : Work.Turned plan workerThread choice s w s' events r') (hproper : w.IsProper)
    (hs : Filed register s history) (hw : w.IsIn register history) :
    Filed register s' (history ++ events.map (Prod.mk workerThread)) ∧
      ∀ w', r'.next? = some w' →
        w'.IsIn register (history ++ events.map (Prod.mk workerThread)) := by
  have hpending : ∀ entry ∈ s'.pending.value, entry ∈ s.pending.value ∨ entry.IsIn register :=
    fun entry hentry => .inl ((Work.pending_of_turn h).1.subset hentry)
  have hfiled : (∀ f ∈ s'.finished.value, f ∈ s.finished.value ∨ IsResult register history f) →
      Filed register s' (history ++ events.map (Prod.mk workerThread)) :=
    hs.later (Work.frame_of_turn h).2.2.2 hpending
  cases h with
  | @popped p pending marks r hpop =>
      refine ⟨hfiled fun f => .inl, ?_⟩
      -- what the pop holds then is what it held, or the front of the pending channel
      have hheld : ∀ entry, Channel.Pop.heldAfter r = some entry → entry.IsIn register := by
        intro entry hentry
        rcases Channel.Pop.marks_of_turn hpop with ⟨-, rfl⟩ | ⟨item, again, -, hvalue, rfl, rfl⟩
        · rw [← Channel.Pop.held_of_turn hpop] at hentry
          exact hw entry hentry
        · obtain rfl : item = entry := Option.some.inj hentry
          exact hs.pending item (by rw [hvalue]; exact List.mem_cons_self)
      intro w' hnext
      rcases r with p' | ⟨code, p'⟩ | answer | fault | _
      · cases hnext
        exact hheld
      · exact absurd rfl ((Channel.Pop.turn_plain hpop).2 code p')
      · rcases answer with _ | ⟨ticket, task⟩ | _
        · cases hnext
          intro entry hentry
          cases hentry
        · cases hnext
          exact hheld (.run ticket task) rfl
        · cases hnext
          trivial
      · cases hnext
        trivial
      · cases hnext
  | entered | began =>
      refine ⟨hfiled fun f => .inl, ?_⟩
      rintro w' ⟨⟩
      exact hw
  | returned f =>
      refine ⟨hfiled fun f => .inl, ?_⟩
      rintro w' ⟨⟩ f' hf'
      obtain rfl : f = f' := Option.some.inj hf'
      exact ⟨hw, List.mem_append_right _ (List.mem_singleton_self _)⟩
  | @published p finished marks r hpush =>
      constructor
      · refine hfiled fun f hf => ?_
        rcases Channel.Push.marks_of_turn hpush with ⟨hvalue, -⟩ | ⟨f', again, rfl, hvalue, -⟩
        · exact .inl (hvalue ▸ hf)
        · have hor : f ∈ s.finished.value ++ [f'] := hvalue ▸ hf
          rw [List.mem_append, List.mem_singleton] at hor
          exact hor.imp_right fun heq => hw f (by rw [heq]; rfl)
      · intro w' hnext
        rcases r with p' | ⟨code, p'⟩ | answer | fault | _
        · cases hnext
          exact fun f hf =>
            (hw f (Channel.Push.ahead_of_next hpush hproper rfl hf).1).later List.prefix_rfl
        · cases hnext
          exact fun f hf =>
            (hw f (Channel.Push.ahead_of_next hpush hproper rfl hf).1).later List.prefix_rfl
        · cases hnext
          trivial
        · cases hnext
          trivial
        · cases hnext
  | rested =>
      refine ⟨hfiled fun f => .inl, ?_⟩
      rintro w' ⟨⟩ entry hentry
      cases hentry
  | failed =>
      refine ⟨hfiled fun f => .inl, ?_⟩
      rintro w' ⟨⟩
      trivial
  | left | died => exact ⟨hfiled fun f => .inl, nofun⟩

/-- A call that has no stage on which others depend takes out what is in the finished channel. -/
theorem filed_other (hpart : call.part = .other) (hopens : call.Opens)
    (h : turn plan t choice s call = some (s', events, r)) (hs : Filed register s history)
    (hflight : ∀ f ∈ call.flight?, IsResult register history f) :
    Filed register s' (history ++ since) ∧
      ∀ call', r.next? = some call' →
        ∀ f ∈ call'.flight?, IsResult register (history ++ since) f := by
  have hframe : s'.nextTicket = s.nextTicket ∧ s'.pending.value = s.pending.value := by
    rcases turn_other hpart hopens h with ⟨haside, -, -⟩ | ⟨-, rfl, -, -⟩
    · exact ⟨haside.nextTicket_eq, haside.pending_eq⟩
    · exact ⟨rfl, rfl⟩
  have hfiled : (∀ f ∈ s'.finished.value, f ∈ s.finished.value ∨ IsResult register history f) →
      Filed register s' (history ++ since) :=
    hs.later hframe.1 fun entry hentry => .inl (hframe.2 ▸ hentry)
  cases delivers_of_turn hpart h with
  | idle hfinished _ hnext _ =>
      refine ⟨hfiled fun f hf => .inl (hfinished ▸ hf), fun call' hcall' f hf => ?_⟩
      rcases hnext call' hcall' with hnone | hsame
      · rw [hnone] at hf
        cases hf
      · rw [hsame] at hf
        exact (hflight f hf).later List.prefix_rfl
  | received f call' hvalue hcall' =>
      refine ⟨hfiled fun f' hf' => .inl (by rw [hvalue]; exact List.mem_cons_of_mem _ hf'), ?_⟩
      rintro call'' ⟨⟩ f' hf'
      obtain rfl : f = f' := Option.some.inj (hcall'.symm.trans hf')
      exact (hs.finished f (by rw [hvalue]; exact List.mem_cons_self)).later List.prefix_rfl
  | delivered f call' hdelivering =>
      refine ⟨hfiled fun f' => .inl, fun call'' hcall'' f' hf' => ?_⟩
      have hsame : call' = call'' := by
        cases hcode : f.callback? <;> rw [hcode] at hcall'' <;> exact Option.some.inj hcall''
      rw [← hsame, (flight?_of_delivering hdelivering).2.1] at hf'
      cases hf'

theorem nextPart_of_next {call' : Call κ V E} (h : r.next? = some call') :
    nextPart r = call'.part := by
  rw [nextPart, h]
  rfl

theorem isIn_of_isFresh {part : Part κ V E} (h : part.IsFresh) : part.IsIn register history := by
  cases h with
  | scheduling job =>
      intro entry hentry
      cases hentry
  | reading | other => trivial

/-- **The register, one step of a call.** -/
theorem filed_of_turn (hsound : call.IsSound)
    (h : turn plan t choice s call = some (s', events, r)) (hs : Filed register s history)
    (hcall : call.IsIn register history)
    (hworker : ∀ w, call.part.working? = some w → t = workerThread) :
    ∃ register', register <+: register' ∧ Filed register' s' (history ++ events.map (Prod.mk t)) ∧
      ∀ call', r.next? = some call' →
        call'.IsIn register' (history ++ events.map (Prod.mk t)) := by
  have hproper := hsound.proper
  have hpartIn := hcall.part
  -- only calls of the last kind have anything in flight
  have hquiet : call.part ≠ .other → ∀ call', r.next? = some call' →
      ∀ {register : List (Task κ V E)} {history : List (Tid × Event V E ν)},
        (nextPart r).IsIn register history → call'.IsIn register history := by
    intro hother call' hnext register history hin
    rw [nextPart_of_next hnext] at hin
    refine ⟨hin, fun f hf => ?_⟩
    rw [(quiet_of_turn hsound hother h).2 call' hnext] at hf
    cases hf
  cases hpart : call.part with
  | scheduling stage =>
      obtain ⟨r', hturn, hlift⟩ := turn_scheduling hpart h
      rw [hpart] at hproper hpartIn
      obtain ⟨register', hgrows, hfiled, hstage⟩ :=
        filed_scheduling (Schedule.turned_of_turn hturn) hproper hs hpartIn
      refine ⟨register', hgrows, hfiled,
        fun call' hnext => hquiet (by rw [hpart]; nofun) call' hnext ?_⟩
      rw [hlift.nextPart_eq]
      cases hr : r'.next? with
      | none => trivial
      | some stage' => exact hstage stage' hr
  | tearing d =>
      obtain ⟨r', hturn, hlift⟩ := turn_tearing hpart h
      rw [hpart] at hproper
      refine ⟨register, List.prefix_rfl, filed_tearing (Teardown.turned_of_turn hturn) hproper hs,
        fun call' hnext => hquiet (by rw [hpart]; nofun) call' hnext ?_⟩
      rw [hlift.nextPart_eq]
      cases r'.next? <;> trivial
  | working w =>
      obtain rfl := hworker w (by rw [hpart]; rfl)
      obtain ⟨r', hturn, hlift⟩ := turn_working hpart h
      rw [hpart] at hproper hpartIn
      obtain ⟨hfiled, hwork⟩ := filed_working (Work.turned_of_turn hturn) hproper hs hpartIn
      refine ⟨register, List.prefix_rfl, hfiled,
        fun call' hnext => hquiet (by rw [hpart]; nofun) call' hnext ?_⟩
      rw [hlift.nextPart_eq]
      cases hr : r'.next? with
      | none => trivial
      | some w' => exact hwork w' hr
  | reading phase =>
      obtain ⟨intake, progress, -, rfl, -, -, -, hnextPart⟩ := turn_reading hpart h
      refine ⟨register, List.prefix_rfl, hs.later rfl (fun entry => .inl) fun f => .inl,
        fun call' hnext => hquiet (by rw [hpart]; nofun) call' hnext ?_⟩
      rw [hnextPart]
      cases progress <;> trivial
  | other =>
      obtain ⟨hfiled, hflight⟩ : Filed register s' (history ++ events.map (Prod.mk t)) ∧
          ∀ call', r.next? = some call' → ∀ f ∈ call'.flight?,
            IsResult register (history ++ events.map (Prod.mk t)) f :=
        filed_other hpart hsound.opens h hs hcall.flight
      refine ⟨register, List.prefix_rfl, hfiled, fun call' hnext => ⟨?_, hflight call' hnext⟩⟩
      rw [← nextPart_of_next hnext]
      rcases turn_other hpart hsound.opens h with ⟨-, -, hfresh⟩ | ⟨-, -, -, reporting, rfl⟩
      · exact isIn_of_isFresh hfresh
      · trivial

/-! ### All runs -/

/-- Whether all that goes under tickets at some moment stands in the register. -/
structure Registered (register : List (Task κ V E)) (v : View κ V E ν) : Prop where
  filed : Filed register v.shared v.history
  calls : ∀ t, ∀ call ∈ (v.calls t).all, call.IsIn register v.history

/-- The calls of one thread change, and the register grows. -/
theorem Registered.of_update {v v' : View κ V E ν} {c : Calls (Call κ V E)}
    (hv : Registered register v) (hcalls : v'.calls = Function.update v.calls t c)
    (hhistory : v'.history = v.history ++ since) (hgrows : register <+: register')
    (hfiled : Filed register' v'.shared v'.history)
    (hc : ∀ call ∈ c.all, call.IsIn register' v'.history) : Registered register' v' := by
  refine ⟨hfiled, ?_⟩
  rw [hcalls, Function.forall_update_iff v.calls
    (p := fun _ c => ∀ call ∈ c.all, call.IsIn register' v'.history)]
  refine ⟨hc, fun u _ call hcall => ?_⟩
  rw [hhistory]
  exact (hv.calls u call hcall).later hgrows

/-- **The register, one step.** -/
theorem registered_of_moved {v v' : View κ V E ν} {w : Option (Work κ V E)}
    (h : Moved plan t v v') (hstaff : Staff w v) (hv : Registered register v) :
    ∃ register', register <+: register' ∧ Registered register' v' := by
  cases h with
  | still => exact ⟨register, List.prefix_rfl, hv⟩
  | noted note _ =>
      exact ⟨register, List.prefix_rfl, hv.filed.later rfl (fun _ => .inl) fun _ => .inl,
        fun u call hcall => (hv.calls u call hcall).later List.prefix_rfl⟩
  | began request hcode =>
      refine ⟨register, List.prefix_rfl, hv.of_update rfl (List.append_nil _).symm List.prefix_rfl
        hv.filed fun call hcall => ?_⟩
      rcases List.mem_cons.mp hcall with rfl | hcall
      · exact isIn_call request
      · exact hv.calls t call (List.mem_append_right _ hcall)
  | @resumed call rest result hwaits =>
      have hold := hv.calls t
      rw [hwaits] at hold
      refine ⟨register, List.prefix_rfl, hv.of_update rfl (List.append_nil _).symm List.prefix_rfl
        hv.filed fun c hc => ?_⟩
      rcases List.mem_cons.mp hc with rfl | hc
      · exact isIn_resume (hold call List.mem_cons_self) result
      · exact hold c (List.mem_cons_of_mem _ hc)
  | @turned call rest choice s' events r hactive hsound hturn hlive =>
      have hold := hv.calls t
      rw [hactive] at hold
      obtain ⟨register', hgrows, hfiled, hnext⟩ := filed_of_turn hsound hturn hv.filed
        (hold call List.mem_cons_self) fun w hw =>
          (hstaff.sole.eq_of_active (by rw [hactive]; rfl) hw).1
      refine ⟨register', hgrows, hv.of_update rfl rfl hgrows hfiled fun c hc => ?_⟩
      rw [Calls.all_after hlive, List.mem_append, Option.mem_toList] at hc
      rcases hc with hc | hc
      · exact hnext c hc
      · exact (hold c (List.mem_cons_of_mem _ hc)).later hgrows

theorem registered_opening : Registered [] (opening : View κ V E ν) := by
  refine ⟨⟨rfl, nofun, nofun⟩, fun t call hcall => ?_⟩
  rw [eq_of_mem_opening hcall]
  exact ⟨nofun, nofun⟩

/-- What is reached from a scene with a register has a register that goes on from there. -/
theorem exists_later_register {v v' : View κ V E ν} (hv : Scene.Reach (library plan) opening v)
    (hregister : Registered register v) (h : Scene.Reach (library plan) v v') :
    ∃ register', register <+: register' ∧ Registered register' v' := by
  refine h.invariant (P := fun v' => ∃ register', register <+: register' ∧ Registered register' v')
    ⟨register, List.prefix_rfl, hregister⟩ ?_
  rintro t v₁ v₂ h₁ ⟨register₁, hgrows₁, hv₁⟩ hstep
  have hreach := hv.trans h₁
  obtain ⟨w, hstaff⟩ := (orderly_of_reach hreach).staff
  obtain ⟨register₂, hgrows₂, hv₂⟩ :=
    registered_of_moved (moved_of_reach hreach hstep) hstaff hv₁
  exact ⟨register₂, hgrows₁.trans hgrows₂, hv₂⟩

/-- **The register.** Every reachable scene has one. -/
theorem exists_register {v : View κ V E ν} (hv : Scene.Reach (library plan) opening v) :
    ∃ register, Registered register v := by
  obtain ⟨register, -, h⟩ := exists_later_register .start registered_opening hv
  exact ⟨register, h⟩

end Offload.Pipeline
