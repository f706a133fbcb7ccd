import Offload.Proofs.Pipeline.Prompt

/-!
# What a scheduling sees and does

A scheduling looks at the intake at most once, while it owns its lock, and what it finds decides
what becomes of the job. A **filing** records what such a call does in steps of its own, and so it
does for a reading of the intake: what it found there, what it added to the pending channel, what it
noted, the code that it ran, and whether it changed anything else. So it can be said of a refused
job that the call has left everything as it was, whatever others have done meanwhile.

## Main definitions

* `Filing`: what is seen of a scheduling or a reading.
* `Decided`, `Answered`: what has been seen when it comes to its end.
* `Call.Fits`: whether what has been seen fits how far a call has come.

## Main results

* `Decided.exactly`: when a job is refused, and why.
* `Schedule.Fits.of_turn`: one step of a scheduling.
* `Call.Fits.of_turn`: one step of a call.
* `Call.Fits.isPrompt`: such a call waits for nothing but a lock.
-/

namespace Offload

variable {κ V E ν : Type}

/-- The code that a turn runs. -/
def Turn.code? {γ α : Type} : Turn κ γ α → Option κ
  | .run code _ => some code
  | .stay _ | .ret _ | .fail _ | .abort => none

/-- A job that is a task has a body, and its destructor is the task's. -/
theorem Job.of_task? {job : Job κ V E} {task : Task κ V E} (h : job.task? = some task) :
    job.isEmpty = false ∧ task.onDrop = job.onDrop := by
  obtain ⟨body, hbody, rfl⟩ := Option.map_eq_some_iff.mp h
  exact ⟨by rw [isEmpty, hbody, Option.isNone_some], rfl⟩

namespace Pipeline

variable {plan : Plan κ} {t : Tid} {choice : Choice}

/-! ### What is seen -/

/-- All of a pipeline but who is in the lock of its intake and how many calls borrow it. -/
def contents (s : Pipeline κ V E) : Pipeline κ V E :=
  { s with intake := { s.intake with owner := none }, borrows := 0 }

/-- All of that but the pending channel and the next ticket. -/
def surroundings (s : Pipeline κ V E) : Pipeline κ V E :=
  { s.contents with pending := Channel.empty, nextTicket := 0 }

theorem pending_of_contents {s s' : Pipeline κ V E} (h : s'.contents = s.contents) :
    s'.pending = s.pending :=
  show s'.contents.pending = s.contents.pending by rw [h]

theorem surroundings_of_contents {s s' : Pipeline κ V E} (h : s'.contents = s.contents) :
    s'.surroundings = s.surroundings := by
  rw [surroundings, surroundings, h]

/-- What is seen of a scheduling or a reading in progress. -/
structure Filing (κ V E ν : Type) where
  /-- How many steps it has made itself. -/
  steps : Nat := 0
  /-- Whether tasks were accepted when it looked. -/
  looked : Option Bool := none
  /-- What it has added at the back of the pending channel. -/
  added : List (Entry κ V E) := []
  /-- What it has noted. -/
  noted : List (Event V E ν) := []
  /-- The code that it has run. -/
  ran : List κ := []
  /-- The fault in which that code has ended. -/
  fault : Option Fault := none
  /-- Whether a step of its own has changed the contents of the pipeline. -/
  touched : Prop := False
  /-- Whether one has changed the surroundings, or the pending entries other than at the back. -/
  strayed : Prop := False

namespace Filing

variable {s s' : Pipeline κ V E} {x : Filing κ V E ν} {looked : Option Bool} {ran : List κ}
  {added : List (Entry κ V E)} {noted : List (Event V E ν)}

/-- What is seen after a step of the call itself, which has looked at the intake in this step or has
not, and runs this code next, if any. -/
def own (x : Filing κ V E ν) (looks : Bool) (s s' : Pipeline κ V E) (events : List (Event V E ν))
    (code? : Option κ) : Filing κ V E ν :=
  { x with
    steps := x.steps + 1
    looked := if looks then some s.intake.value else x.looked
    added := x.added ++ s'.pending.value.drop s.pending.value.length
    noted := x.noted ++ events
    ran := x.ran ++ code?.toList
    touched := x.touched ∨ s'.contents ≠ s.contents
    strayed := x.strayed ∨ s'.surroundings ≠ s.surroundings ∨
      ¬ s.pending.value <+: s'.pending.value }

/-- What is seen after any other step, in which code of the call may have failed. -/
def aside (x : Filing κ V E ν) (fault? : Option Fault) : Filing κ V E ν :=
  { x with fault := fault?.or x.fault }

/-- Whether a call has left everything as it was, where it has found this at the intake, if it has
looked, and has run this code. -/
structure Idle (x : Filing κ V E ν) (looked : Option Bool) (ran : List κ) : Prop where
  looked : x.looked = looked
  added : x.added = []
  noted : x.noted = []
  ran : x.ran = ran
  touched : ¬ x.touched
  strayed : ¬ x.strayed

/-- Whether a call has found that tasks are accepted, and has added and noted so much and no more.
-/
structure Adds (x : Filing κ V E ν) (added : List (Entry κ V E)) (noted : List (Event V E ν)) :
    Prop where
  looked : x.looked = some true
  added : x.added = added
  noted : x.noted = noted
  ran : x.ran = []
  strayed : ¬ x.strayed

/-- A step that leaves the contents alone. -/
theorem Idle.own (h : x.Idle looked ran) (looks : Bool) (code? : Option κ)
    (hsame : s'.contents = s.contents) : (x.own looks s s' [] code?).Idle
      (if looks then some s.intake.value else looked) (ran ++ code?.toList) where
  looked := by rw [Filing.own, h.looked]
  added := by
    rw [Filing.own, h.added, pending_of_contents hsame, List.drop_length, List.append_nil]
  noted := (List.append_nil _).trans h.noted
  ran := congrArg (· ++ code?.toList) h.ran
  touched := not_or.mpr ⟨h.touched, not_not.mpr hsame⟩
  strayed := not_or.mpr ⟨h.strayed, not_or.mpr ⟨not_not.mpr (surroundings_of_contents hsame),
    not_not.mpr (pending_of_contents hsame ▸ List.prefix_rfl)⟩⟩

/-- A step that finds that tasks are accepted. -/
theorem Idle.admits (h : x.Idle none []) (hopen : s.intake.value = true)
    (hsame : s'.surroundings = s.surroundings) (hpending : s'.pending = s.pending) :
    (x.own true s s' [] none).Adds [] [] where
  looked := by rw [Filing.own, if_pos rfl, hopen]
  added := by rw [Filing.own, h.added, hpending, List.drop_length, List.append_nil]
  noted := (List.append_nil _).trans h.noted
  ran := (List.append_nil _).trans h.ran
  strayed := not_or.mpr ⟨h.strayed, not_or.mpr ⟨not_not.mpr hsame,
    not_not.mpr (hpending ▸ List.prefix_rfl)⟩⟩

/-- A step that adds these entries at the back. -/
theorem Adds.own (h : x.Adds added noted) (hsame : s'.surroundings = s.surroundings)
    {entries : List (Entry κ V E)} (hvalue : s'.pending.value = s.pending.value ++ entries)
    (events : List (Event V E ν)) :
    (x.own false s s' events none).Adds (added ++ entries) (noted ++ events) where
  looked := h.looked
  added := by rw [Filing.own, h.added, hvalue, List.drop_left]
  noted := congrArg (· ++ events) h.noted
  ran := (List.append_nil _).trans h.ran
  strayed := not_or.mpr ⟨h.strayed, not_or.mpr ⟨not_not.mpr hsame,
    not_not.mpr (hvalue ▸ List.prefix_append _ _)⟩⟩

/-- A step on the pending channel that adds these entries at the back. -/
theorem Adds.pushes (h : x.Adds added noted) {pending : Channel (Entry κ V E)}
    {entries : List (Entry κ V E)} (hvalue : pending.value = s.pending.value ++ entries)
    (events : List (Event V E ν)) : (x.own false s { s with pending := pending } events none).Adds
      (added ++ entries) (noted ++ events) := by
  refine h.own ?_ hvalue events
  rfl

/-- A step on the pending channel that leaves its items as they are. -/
theorem Adds.keeps (h : x.Adds added noted) {pending : Channel (Entry κ V E)}
    (hvalue : pending.value = s.pending.value) :
    (x.own false s { s with pending := pending } [] none).Adds added noted := by
  have hadds := h.pushes (hvalue.trans (List.append_nil _).symm) []
  rwa [List.append_nil, List.append_nil] at hadds

/-- Other steps do not change what the call has done. -/
theorem Idle.aside (h : x.Idle looked ran) (fault? : Option Fault) :
    (x.aside fault?).Idle looked ran :=
  ⟨h.looked, h.added, h.noted, h.ran, h.touched, h.strayed⟩

end Filing

/-! ### How it fits -/

/-- Whether a call has refused a job with this failure and has left everything as it was, where it
has run this code: it has not looked at the intake if the job has no body, and otherwise it has
found that no task is accepted. -/
inductive Refused (job : Job κ V E) (x : Filing κ V E ν) (ran : List κ) : Failure → Prop where
  | emptyBody : job.isEmpty = true → x.Idle none ran → Refused job x ran .emptyBody
  | stopped : job.isEmpty = false → x.Idle (some false) ran → Refused job x ran .stopped

theorem Refused.own {s s' : Pipeline κ V E} {job : Job κ V E} {x : Filing κ V E ν} {ran : List κ}
    {failure : Failure} (h : Refused job x ran failure) (code? : Option κ)
    (hsame : s'.contents = s.contents) :
    Refused job (x.own false s s' [] code?) (ran ++ code?.toList) failure := by
  cases h with
  | emptyBody hbody hx => exact .emptyBody hbody (hx.own false code? hsame)
  | stopped hbody hx => exact .stopped hbody (hx.own false code? hsame)

theorem Refused.aside {job : Job κ V E} {x : Filing κ V E ν} {ran : List κ} {failure : Failure}
    (h : Refused job x ran failure) (fault? : Option Fault) :
    Refused job (x.aside fault?) ran failure := by
  cases h with
  | emptyBody hbody hx => exact .emptyBody hbody (hx.aside fault?)
  | stopped hbody hx => exact .stopped hbody (hx.aside fault?)

/-- What has been seen of the scheduling of a job when it comes to its end with an outcome. -/
inductive Decided (job : Job κ V E) (x : Filing κ V E ν) :
    Except Fault (Except Failure Unit) → Prop where
  /-- It has been refused, and nothing but its destructor has run. -/
  | refused (failure : Failure) : Refused job x job.onDrop.toList failure →
      Decided job x (.ok (.error failure))
  /-- The destructor of a refused job has failed. -/
  | struck (failure : Failure) (fault : Fault) : Refused job x job.onDrop.toList failure →
      x.fault = some fault → Decided job x (.error fault)
  /-- Tasks were accepted, and exactly this one has been added. -/
  | accepted (ticket : Ticket) (task : Task κ V E) : job.task? = some task →
      x.Adds [.run ticket task] [.accepted ticket] → Decided job x (.ok (.ok ()))

/-- **Exactly when.** A scheduling that answers has refused the job for want of a body exactly if it
has none, and any other job exactly if no task was accepted when it looked; else it has accepted it.
-/
theorem Decided.exactly {job : Job κ V E} {x : Filing κ V E ν} {outcome : Except Failure Unit}
    (h : Decided job x (.ok outcome)) :
    (outcome = .error .emptyBody ↔ job.isEmpty = true) ∧
      (outcome = .error .stopped ↔ job.isEmpty = false ∧ x.looked = some false) ∧
      (outcome = .ok () ↔ job.isEmpty = false ∧ x.looked = some true) := by
  cases h with
  | refused failure hx =>
      cases hx with
      | emptyBody hbody hx => simp [Failure.emptyBody, hbody]
      | stopped hbody hx => simp [Failure.emptyBody, hbody, hx.looked]
  | accepted ticket task htask hx => simp [(Job.of_task? htask).1, hx.looked]

theorem Decided.own {s s' : Pipeline κ V E} {job : Job κ V E} {x : Filing κ V E ν}
    {outcome : Except Fault (Except Failure Unit)} (h : Decided job x outcome)
    (hsame : s'.contents = s.contents) : Decided job (x.own false s s' [] none) outcome := by
  have hrefused : ∀ {failure}, Refused job x job.onDrop.toList failure →
      Refused job (x.own false s s' [] none) job.onDrop.toList failure := by
    intro failure hx
    have hx' := hx.own none hsame
    rwa [Option.toList_none, List.append_nil] at hx'
  cases h with
  | refused failure hx => exact .refused failure (hrefused hx)
  | struck failure fault hx hfault => exact .struck failure fault (hrefused hx) hfault
  | accepted ticket task htask hx =>
      have hvalue : s'.pending.value = s.pending.value ++ [] := by
        rw [pending_of_contents hsame, List.append_nil]
      exact .accepted ticket task htask (hx.own (surroundings_of_contents hsame) hvalue [])

/-- What has been seen of a call when it comes to its end with an outcome; `owned` says whether the
pipeline has an owner then. -/
inductive Answered (owned : Bool) (x : Filing κ V E ν) :
    Request κ V E → Except Fault Answer → Prop where
  | gone (job : Job κ V E) : owned = false → x.Idle none [] →
      Answered owned x (.scheduling job) (.ok .gone)
  | owner {job : Job κ V E} (outcome : Except Fault (Except Failure Unit)) :
      Decided job x outcome → Answered owned x (.scheduling job) (outcome.map .scheduled)
  | handle {job : Job κ V E} (outcome : Except Fault (Except Failure Unit)) :
      Decided job x outcome → Answered owned x (.handing job) (outcome.map .scheduled)
  /-- A reading answers what it has found. -/
  | reading (accepting : Bool) : x.Idle (some accepting) [] →
      Answered owned x .askingAccepting (.ok (.flag accepting))

/-- Whether what has been seen of the scheduling of a job fits how far it has come. -/
inductive Schedule.Fits (job : Job κ V E) (x : Filing κ V E ν) : Schedule κ V E → Prop where
  | checking : x.Idle none [] → Fits job x (.checking job)
  | entering (task : Task κ V E) : job.task? = some task → x.Idle none [] →
      Fits job x (.entering task)
  | deciding (task : Task κ V E) : job.task? = some task → x.Idle none [] →
      Fits job x (.deciding task)
  | bringing (ticket : Ticket) (task : Task κ V E) (p : Channel.Push (Entry κ V E)) :
      job.task? = some task → p.Adds → p.ahead = some (.run ticket task) → x.Adds [] [] →
      Fits job x (.pushing p)
  | brought (ticket : Ticket) (task : Task κ V E) (p : Channel.Push (Entry κ V E)) :
      job.task? = some task → p.Adds → p.ahead = none →
      x.Adds [.run ticket task] [.accepted ticket] → Fits job x (.pushing p)
  | leaving (ticket : Ticket) (task : Task κ V E) : job.task? = some task →
      x.Adds [.run ticket task] [.accepted ticket] → Fits job x (.leaving (.ok none))
  | denied (task : Task κ V E) : job.task? = some task → x.Idle (some false) [] →
      Fits job x (.leaving (.ok (some task)))
  | dropping (failure : Failure) : Refused job x [] failure →
      Fits job x (.dropping job.onDrop failure)
  | dropped (failure : Failure) : Refused job x job.onDrop.toList failure →
      Fits job x (.dropped (.ok failure))
  | struck (failure : Failure) (fault : Fault) : Refused job x job.onDrop.toList failure →
      x.fault = some fault → Fits job x (.dropped (.error fault))

/-- How many steps a scheduling has to go to its end. -/
def Schedule.toEnd : Schedule κ V E → Nat
  | .checking _ => 9
  | .entering _ => 8
  | .deciding _ => 7
  | .pushing p => p.toGo + 1
  | .leaving (.ok (some _)) => 3
  | .dropping _ _ => 2
  | .leaving _ | .dropped _ => 1

theorem Schedule.toEnd_pos (stage : Schedule κ V E) : 0 < stage.toEnd := by
  cases stage with
  | leaving refused => rcases refused with _ | _ | _ <;> exact Nat.succ_pos _
  | checking _ | entering _ | deciding _ | pushing _ | dropping _ _ | dropped _ =>
      exact Nat.succ_pos _

/-- Whether a scheduling looks at the intake in its next step. -/
def Schedule.looksIn : Schedule κ V E → Bool
  | .deciding _ => true
  | _ => false

/-- Whether the destructor of a refused job runs for a scheduling that waits for code. -/
def Schedule.destroys : Schedule κ V E → Bool
  | .dropped (.ok _) => true
  | _ => false

/-- What one step comes to of a call that has to go to its end: it has less to go, perhaps when code
has ended that it runs, or it has come there. -/
inductive Advances {γ β : Type} (Fits : γ → Prop) (toEnd : γ → Nat) (waits : γ → Bool)
    (Done : Except Fault β → Prop) (call : γ) : Turn κ γ β → Prop where
  | on (call' : γ) : Fits call' → toEnd call' < toEnd call →
      Advances Fits toEnd waits Done call (.stay call')
  | runs (code : κ) (call' : γ) : Fits call' → toEnd call' < toEnd call → waits call' = true →
      Advances Fits toEnd waits Done call (.run code call')
  | answered (answer : β) : Done (.ok answer) → Advances Fits toEnd waits Done call (.ret answer)
  | failed (fault : Fault) : Done (.error fault) → Advances Fits toEnd waits Done call (.fail fault)

variable {s s' : Pipeline κ V E}
  {events : List (Event V E ν)} {x : Filing κ V E ν} {job : Job κ V E}

/-! ### Steps of a scheduling -/

section Scheduling

variable {stage : Schedule κ V E} {r : Turn κ (Schedule κ V E) (Except Failure Unit)}

/-- A push that has its item ahead brings it, in one step, and has nothing ahead then. -/
theorem Schedule.fits_pushing {p : Channel.Push (Entry κ V E)} {ticket : Ticket}
    {task : Task κ V E} (htask : job.task? = some task) (hp : p.Adds)
    (hx : p.ahead = some (.run ticket task) ∧ x.Adds [] [] ∨
      p.ahead = none ∧ x.Adds [.run ticket task] [.accepted ticket])
    (h : (Schedule.pushing p).turn t choice s = some (s', events, r)) :
    Advances (Fits job (x.own false s s' events r.code?)) toEnd destroys
      (Decided job (x.own false s s' events r.code?)) (.pushing p) r := by
  obtain ⟨pending, marks, r', hpush, rfl, rfl, rfl⟩ := Work.exists_of_onPending h
  have hplain : p.IsPlain := by
    cases p with
    | adding _ _ => exact hp
    | notifying | hooking | ending _ => trivial
  obtain ⟨hahead, -⟩ := Channel.Push.ahead_of_turn hpush hplain
  have hgoes := Channel.Push.adds_of_turn hpush hp
  rcases Channel.Push.marks_of_turn hpush with ⟨hvalue, hmarks⟩ |
    ⟨entry, again, rfl, hvalue, rfl, rfl⟩
  · -- the items stay as they are, and so does what is ahead
    have hnone : (marks.flatMap pendingEvent : List (Event V E ν)) = [] ∧
        Channel.added marks = [] := by
      rcases hmarks with rfl | rfl <;> exact ⟨rfl, rfl⟩
    rw [hnone.2, List.nil_append] at hahead
    rw [hnone.1]
    rcases hgoes with ⟨p', rfl, hp', hless⟩ | rfl
    · refine .on _ ?_ (Nat.succ_lt_succ hless)
      have hsame : p'.ahead = p.ahead := by
        have hheads := congrArg List.head? hahead
        rw [Option.head?_toList, Option.head?_toList] at hheads
        exact hheads.symm
      rcases hx with ⟨hbefore, hadds⟩ | ⟨hbefore, hadds⟩
      · exact .bringing ticket task p' htask hp' (hsame.trans hbefore) (hadds.keeps hvalue)
      · exact .brought ticket task p' htask hp' (hsame.trans hbefore) (hadds.keeps hvalue)
    · rcases hx with ⟨hbefore, -⟩ | ⟨-, hadds⟩
      · rw [hbefore] at hahead
        cases hahead
      · refine .on _ (.leaving ticket task htask (hadds.keeps hvalue)) (Nat.succ_lt_succ ?_)
        cases p with
        | adding _ _ | notifying | hooking => exact Nat.succ_pos _
        | ending _ => exact hp.elim
  · -- the item joins the others at the back
    rcases hx with ⟨hbefore, hadds⟩ | ⟨hbefore, -⟩
    · cases hbefore
      have hadds' := hadds.pushes hvalue [.accepted ticket]
      exact .on _ (.brought ticket task _ htask trivial rfl hadds') (Nat.lt_succ_self _)
    · cases hbefore

/-- **A scheduling, one step.** What has been seen of it fits how far it has come. -/
theorem Schedule.Fits.of_turn (hfits : stage.Fits job x)
    (h : stage.turn t choice s = some (s', events, r)) :
    Advances (Fits job (x.own stage.looksIn s s' events r.code?)) toEnd destroys
      (Decided job (x.own stage.looksIn s s' events r.code?)) stage r := by
  cases hfits with
  | checking hx =>
      cases htask : job.task? with
      | none =>
          simp only [turn, htask] at h
          cases h
          have hempty : job.isEmpty = true := by
            rw [Job.isEmpty, Option.map_eq_none_iff.mp htask, Option.isNone_none]
          exact .on _ (.dropping _ (.emptyBody hempty (hx.own false none rfl)))
            (Nat.le_of_ble_eq_true rfl)
      | some task =>
          simp only [turn, htask] at h
          cases h
          exact .on _ (.entering task htask (hx.own false none rfl)) (Nat.lt_succ_self _)
  | entering task htask hx =>
      obtain ⟨intake, hacquire, heq⟩ := Option.map_eq_some_iff.mp h
      obtain ⟨-, rfl⟩ := Monitor.acquire_eq_some hacquire
      cases heq
      exact .on _ (.deciding task htask (hx.own false none rfl)) (Nat.lt_succ_self _)
  | deciding task htask hx =>
      cases hopen : s.intake.value with
      | true =>
          simp only [turn, hopen, if_true] at h
          cases h
          exact .on _ (.bringing s.nextTicket task _ htask trivial rfl (hx.admits hopen rfl rfl))
            (Nat.lt_succ_self _)
      | false =>
          simp only [turn, hopen, Bool.false_eq_true, if_false] at h
          cases h
          have hx' := hx.own (s := s) true none rfl
          rw [if_pos rfl, hopen] at hx'
          exact .on _ (.denied task htask hx') (Nat.le_of_ble_eq_true rfl)
  | bringing ticket task p htask hp hahead hx =>
      exact fits_pushing htask hp (.inl ⟨hahead, hx⟩) h
  | brought ticket task p htask hp hahead hx =>
      exact fits_pushing htask hp (.inr ⟨hahead, hx⟩) h
  | leaving ticket task htask hx =>
      cases h
      exact .answered _ (Decided.own (.accepted ticket task htask hx) rfl)
  | denied task htask hx =>
      cases h
      obtain ⟨hbody, hdrop⟩ := Job.of_task? htask
      rw [hdrop]
      exact .on _ (.dropping _ (.stopped hbody (hx.own false none rfl))) (Nat.lt_succ_self _)
  | dropping failure hx =>
      cases hdrop : job.onDrop with
      | none =>
          rw [hdrop] at h
          cases h
          refine .on _ (.dropped failure ?_) (Nat.lt_succ_self _)
          rw [hdrop]
          exact hx.own none rfl
      | some code =>
          rw [hdrop] at h
          cases h
          refine .runs code _ (.dropped failure ?_) (Nat.lt_succ_self _) rfl
          rw [hdrop]
          exact hx.own (some code) rfl
  | dropped failure hx =>
      cases h
      exact .answered _ (Decided.own (.refused failure hx) rfl)
  | struck failure fault hx hfault =>
      cases h
      exact .failed _ (Decided.own (.struck failure fault hx hfault) rfl)

end Scheduling

/-! ### Steps of a call -/

/-- Whether a request is to schedule a job or to read the intake. -/
def Request.visits : Request κ V E → Bool
  | .scheduling _ | .handing _ | .askingAccepting => true
  | _ => false

/-- Whether what has been seen of the call of a request fits how far it has come. -/
inductive Call.Fits (x : Filing κ V E ν) : Request κ V E → Call κ V E → Prop where
  | opening (job : Job κ V E) : x.Idle none [] →
      Fits x (.scheduling job) (.opening (.schedule (.checking job)))
  | inside {job : Job κ V E} (stage : Schedule κ V E) : stage.Fits job x →
      Fits x (.scheduling job) (.inside (.schedule stage))
  | closing {job : Job κ V E} (outcome : Except Fault (Except Failure Unit)) :
      Decided job x outcome → Fits x (.scheduling job) (.closing (outcome.map .scheduled))
  | handle {job : Job κ V E} (stage : Schedule κ V E) : stage.Fits job x →
      Fits x (.handing job) (.handle (.schedule stage))
  | arriving : x.Idle none [] → Fits x .askingAccepting (.handle (.accepting .arriving))
  | acting (again : Bool) : x.Idle none [] →
      Fits x .askingAccepting (.handle (.accepting (.acting again)))
  | leaving (accepting : Bool) : x.Idle (some accepting) [] →
      Fits x .askingAccepting (.handle (.accepting (.leaving (.ok (some accepting)))))

namespace Call

variable {request : Request κ V E} {call : Call κ V E} {r : Turn κ (Call κ V E) Answer}

/-- How many steps such a call has to go to its end. -/
def toEnd : Call κ V E → Nat
  | .opening _ => 11
  | .inside (.schedule stage) => stage.toEnd + 1
  | .handle (.schedule stage) => stage.toEnd
  | .handle (.accepting phase) => phase.toGo
  | _ => 1

/-- Whether a call looks at the intake in its next step. -/
def looksIn : Call κ V E → Bool
  | .inside (.schedule stage) | .handle (.schedule stage) => stage.looksIn
  | .handle (.accepting (.acting _)) => true
  | _ => false

/-- Whether the destructor of a refused job runs for a call that waits for code. -/
def destroys : Call κ V E → Bool
  | .inside (.schedule stage) | .handle (.schedule stage) => stage.destroys
  | _ => false

/-- Such a call begins with nothing seen, and has eleven steps to go at most. -/
theorem fits_of_visits (h : request.visits = true) :
    request.call.Fits ({} : Filing κ V E ν) request ∧ request.call.toEnd ≤ 11 := by
  have hidle : ({} : Filing κ V E ν).Idle none [] := ⟨rfl, rfl, rfl, rfl, id, id⟩
  cases request with
  | scheduling job => exact ⟨.opening job hidle, le_refl _⟩
  | handing job => exact ⟨.handle _ (.checking hidle), Nat.le_of_ble_eq_true rfl⟩
  | askingAccepting => exact ⟨.arriving hidle, Nat.le_of_ble_eq_true rfl⟩
  | draining _ | awaiting _ | countingPending | countingFinished | askingBusy | taking _ => cases h

theorem Fits.toEnd_pos (h : call.Fits x request) : 0 < call.toEnd := by
  cases h with
  | opening _ _ | inside _ _ | closing _ _ => exact Nat.succ_pos _
  | handle stage _ => exact stage.toEnd_pos
  | arriving _ | acting _ _ | leaving _ _ => exact Nat.succ_pos _

/-- **At the intake, one step.** A call that has been seen so far to fit how far it has come goes on
like that, and has less to go, or it has come to its end. -/
theorem Fits.of_turn (hfits : call.Fits x request)
    (h : turn plan t choice s call = some (s', events, r)) :
    Advances (Fits (x.own call.looksIn s s' events r.code?) request) toEnd destroys
      (Answered s'.owned (x.own call.looksIn s s' events r.code?) request) call r := by
  cases hfits with
  | opening job hx =>
      cases howned : s.owned with
      | true =>
          rw [turn, if_pos howned] at h
          cases h
          exact .on _ (.inside _ (.checking (hx.own false none rfl))) (Nat.lt_succ_self _)
      | false =>
          simp only [turn, howned, Bool.false_eq_true, if_false] at h
          cases h
          exact .answered _ (.gone job howned (hx.own false none rfl))
  | inside stage hstage =>
      obtain ⟨r', huse, rfl⟩ := exists_of_nest h
      obtain ⟨r'', hturn, rfl⟩ := exists_of_nest huse
      cases hstage.of_turn hturn with
      | on stage' hfits hless => exact .on _ (.inside stage' hfits) (Nat.succ_lt_succ hless)
      | runs code stage' hfits hless hwaits =>
          exact .runs code _ (.inside stage' hfits) (Nat.succ_lt_succ hless) hwaits
      | answered outcome hdecided =>
          exact .on _ (.closing (.ok outcome) hdecided) (Nat.succ_lt_succ stage.toEnd_pos)
      | failed fault hdecided =>
          exact .on _ (.closing (.error fault) hdecided) (Nat.succ_lt_succ stage.toEnd_pos)
  | closing outcome hdecided =>
      cases h
      cases outcome with
      | ok outcome => exact .answered _ (.owner (.ok outcome) (hdecided.own rfl))
      | error fault => exact .failed fault (.owner (.error fault) (hdecided.own rfl))
  | handle stage hstage =>
      obtain ⟨r', huse, rfl⟩ := exists_of_nest h
      obtain ⟨r'', hturn, rfl⟩ := exists_of_nest huse
      cases hstage.of_turn hturn with
      | on stage' hfits hless => exact .on _ (.handle stage' hfits) hless
      | runs code stage' hfits hless hwaits =>
          exact .runs code _ (.handle stage' hfits) hless hwaits
      | answered outcome hdecided => exact .answered _ (.handle (.ok outcome) hdecided)
      | failed fault hdecided => exact .failed fault (.handle (.error fault) hdecided)
  | arriving hx =>
      obtain ⟨r', huse, rfl⟩ := exists_of_nest h
      obtain ⟨⟨intake, progress⟩, hvisit, heq⟩ := Option.map_eq_some_iff.mp huse
      obtain ⟨m, hacquire, heq'⟩ := Option.map_eq_some_iff.mp hvisit
      obtain ⟨-, rfl⟩ := Monitor.acquire_eq_some hacquire
      cases heq'
      cases heq
      exact .on _ (.acting false (hx.own false none rfl)) (Nat.lt_succ_self _)
  | acting again hx =>
      cases h
      exact .on _ (.leaving _ (hx.own true none rfl)) (Nat.lt_succ_self _)
  | leaving accepting hx =>
      cases h
      exact .answered _ (.reading accepting (hx.own false none rfl))

/-- What other steps do is seen only if code of the call fails, and that only while its destructor
runs. -/
theorem Fits.aside (h : call.Fits x request) (hdestroys : call.destroys = true)
    (fault? : Option Fault) : call.Fits (x.aside fault?) request := by
  have hstage : ∀ {job : Job κ V E} {stage : Schedule κ V E}, stage.Fits job x →
      stage.destroys = true → stage.Fits job (x.aside fault?) := by
    intro job stage hstage hdestroys
    cases hstage with
    | dropped failure hx => exact .dropped failure (hx.aside fault?)
    | _ => cases hdestroys
  cases h with
  | inside stage hfits => exact .inside stage (hstage hfits hdestroys)
  | handle stage hfits => exact .handle stage (hstage hfits hdestroys)
  | opening _ _ | closing _ _ | arriving _ | acting _ _ | leaving _ _ => cases hdestroys

/-- The call goes on when the destructor has ended, whose fault has been seen. -/
theorem Fits.resume (h : call.Fits x request) (hdestroys : call.destroys = true)
    (result : Except Fault (Except E V)) (fault? : Option Fault)
    (hfault : ∀ fault, result = .error fault → fault? = some fault) :
    (resume call result).Fits (x.aside fault?) request ∧
      (resume call result).toEnd = call.toEnd := by
  have hstage : ∀ {job : Job κ V E} {stage : Schedule κ V E}, stage.Fits job x →
      stage.destroys = true → (stage.resume result).Fits job (x.aside fault?) ∧
        (stage.resume result).toEnd = stage.toEnd := by
    intro job stage hstage hdestroys
    cases hstage with
    | dropped failure hx =>
        cases result with
        | ok _ => exact ⟨.dropped failure (hx.aside fault?), rfl⟩
        | error fault =>
            refine ⟨.struck failure fault (hx.aside fault?) ?_, rfl⟩
            rw [Filing.aside, hfault fault rfl, Option.some_or]
    | _ => cases hdestroys
  cases h with
  | inside stage hfits =>
      obtain ⟨hfits', htoEnd⟩ := hstage hfits hdestroys
      exact ⟨.inside _ hfits', congrArg (· + 1) htoEnd⟩
  | handle stage hfits =>
      obtain ⟨hfits', htoEnd⟩ := hstage hfits hdestroys
      exact ⟨.handle _ hfits', htoEnd⟩
  | opening _ _ | closing _ _ | arriving _ | acting _ _ | leaving _ _ => cases hdestroys

/-- Such a call waits for nothing but a lock. -/
theorem Fits.isPrompt (h : call.Fits x request) (hsound : call.IsSound) :
    call.IsPrompt plan ν t := by
  cases h with
  | opening _ _ => exact isPrompt_opening _
  | inside _ _ | handle _ _ => exact isPrompt_scheduling rfl hsound.proper
  | closing _ _ => exact fun _ _ => rfl
  | arriving _ | acting _ _ | leaving _ _ => exact isPrompt_reading rfl trivial

end Call

end Pipeline

end Offload
