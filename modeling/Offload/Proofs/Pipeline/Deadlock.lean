import Offload.Proofs.Pipeline.Locks

/-!
# Code under locks, and deadlocks

A call that cannot go on wants a lock, or it waits for something that no lock decides: a body, the
end of the worker's thread, or the pipeline's other borrowers. What wants a lock owns only locks of
a lower rank. With that the calls of a pipeline fit its locks, so what holds of ranked locks in
general holds of every run: no code runs under a lock, and no circle of threads waits for locks.

## Main results

* `Call.wants_of_freed`: only the want of a lock keeps a call from going on that could if the lock
  were free.
* `Call.rank_lt`: a call that wants a lock owns only locks of a lower rank.
* `locks_fits`: the calls of a pipeline keep to its locks.
* `code_under_no_lock`: all runs, of a pipeline and of any channel that is used by itself.
-/

namespace Offload.Pipeline

variable {κ ω V E ν : Type} {plan : Plan κ} {t : Tid} {choice : Choice} {s s' : Pipeline κ V E}
  {events : List (Event V E ν)} {call : Call κ V E} {r : Turn κ (Call κ V E) Answer}

/-! ### What keeps a call from going on -/

/-- A step that is impossible in one state and possible in another looks at something else there. -/
theorem ne_of_stuck {β γ δ : Type} {o o' : Option β} {f : β → γ} {g : β → δ} (h : o.map f = none)
    (h' : (o'.map g).isSome = true) : o ≠ o' := by
  rintro rfl
  rw [Option.isSome_map, Option.map_eq_none_iff.mp h] at h'
  cases h'

/-- What does not own its lock wants it. -/
theorem wants_of_free {b : Bool} {l : Lock} (h : b = false) :
    (if b then none else some l) = some l := by
  rw [h]
  rfl

/-- A larger step is possible exactly if the part's is. -/
theorem stuck_of_nest {γ β γ' β' : Type} {wrap : γ → γ'} {answered : β → Turn κ γ' β'}
    {failed : Fault → Turn κ γ' β'} {wants : Option Lock} {l : Lock}
    {part part' : Option (Pipeline κ V E × List (Event V E ν) × Turn κ γ β)}
    (hstuck : part.map (nest wrap answered failed) = none)
    (hmoves : (part'.map (nest wrap answered failed)).isSome = true)
    (hpart : part = none → part'.isSome = true → wants = some l) : wants = some l :=
  hpart (Option.map_eq_none_iff.mp hstuck) (by rwa [Option.isSome_map] at hmoves)

/-- Only the want of a lock keeps a scheduling from going on. -/
theorem Schedule.wants_of_freed {stage : Schedule κ V E} {l : Lock}
    (hstuck : stage.turn t choice s = (none : Option (Pipeline κ V E × List (Event V E ν) × _)))
    (hmoves : (stage.turn t choice (s.freed l) :
      Option (Pipeline κ V E × List (Event V E ν) × _)).isSome = true) :
    stage.wants = some l := by
  cases stage with
  | entering task =>
      cases l with
      | intake => rfl
      | pending | finished => exact absurd rfl (ne_of_stuck hstuck hmoves)
  | pushing p =>
      cases l with
      | pending => exact if_pos (Channel.Push.wants_of_stuck (Option.map_eq_none_iff.mp hstuck))
      | intake | finished => exact absurd rfl (ne_of_stuck hstuck hmoves)
  | checking job =>
      simp only [turn] at hstuck
      split at hstuck <;> cases hstuck
  | deciding task =>
      simp only [turn] at hstuck
      split at hstuck <;> cases hstuck
  | leaving refused => rcases refused with _ | _ | _ <;> cases hstuck
  | dropping onDrop failure => cases onDrop <;> cases hstuck
  | dropped outcome => cases outcome <;> cases hstuck

/-- Only the want of a lock keeps the worker from going on, apart from the body that it runs. -/
theorem Work.wants_of_freed {w : Work κ V E} {l : Lock}
    (hstuck : w.turn plan t choice s = (none : Option (Pipeline κ V E × List (Event V E ν) × _)))
    (hmoves : (w.turn plan t choice (s.freed l) :
      Option (Pipeline κ V E × List (Event V E ν) × _)).isSome = true) : w.wants = some l := by
  cases w with
  | popping p =>
      cases l with
      | pending =>
          exact wants_of_free (Visit.owns_of_stuck (Option.map_eq_none_iff.mp hstuck))
      | intake | finished => exact absurd rfl (ne_of_stuck hstuck hmoves)
  | publishing p =>
      cases l with
      | finished => exact if_pos (Channel.Push.wants_of_stuck (Option.map_eq_none_iff.mp hstuck))
      | intake | pending => exact absurd rfl (ne_of_stuck hstuck hmoves)
  | running _ _ => cases hmoves
  | entering _ _ | starting _ _ | returning _ | resting | leaving | failing _ | dying _ =>
      cases hstuck

/-- Only the want of a lock keeps a drain from going on. -/
theorem Drain.wants_of_freed {stage : Drain κ V E} {l : Lock}
    (hstuck : stage.turn t choice s = (none : Option (Pipeline κ V E × List (Event V E ν) × _)))
    (hmoves : (stage.turn t choice (s.freed l) :
      Option (Pipeline κ V E × List (Event V E ν) × _)).isSome = true) :
    stage.wants = some l := by
  cases stage with
  | popping left p =>
      cases l with
      | finished =>
          exact wants_of_free (Visit.owns_of_stuck (Option.map_eq_none_iff.mp hstuck))
      | intake | pending => exact absurd rfl (ne_of_stuck hstuck hmoves)
  | checking phase =>
      cases l with
      | finished =>
          exact wants_of_free (Visit.owns_of_stuck (Option.map_eq_none_iff.mp hstuck))
      | intake | pending => exact absurd rfl (ne_of_stuck hstuck hmoves)
  | going left => cases left <;> cases hstuck
  | delivering _ _ | failing _ => cases hstuck

/-- Only the want of a lock keeps an await from going on. -/
theorem Await.wants_of_freed {stage : Await κ V E} {l : Lock}
    (hstuck : stage.turn t choice s = (none : Option (Pipeline κ V E × List (Event V E ν) × _)))
    (hmoves : (stage.turn t choice (s.freed l) :
      Option (Pipeline κ V E × List (Event V E ν) × _)).isSome = true) :
    stage.wants = some l := by
  cases stage with
  | popping p =>
      cases l with
      | finished =>
          exact wants_of_free (Visit.owns_of_stuck (Option.map_eq_none_iff.mp hstuck))
      | intake | pending => exact absurd rfl (ne_of_stuck hstuck hmoves)
  | delivering _ => cases hstuck
  | ending outcome => cases outcome <;> cases hstuck

/-- Only the want of a lock keeps a teardown from going on, apart from the worker's end that it
waits for. -/
theorem Teardown.wants_of_freed {d : Teardown κ V E} {l : Lock}
    (hstuck : d.turn t choice s = (none : Option (Pipeline κ V E × List (Event V E ν) × _)))
    (hmoves : (d.turn t choice (s.freed l) :
      Option (Pipeline κ V E × List (Event V E ν) × _)).isSome = true) :
    d.stage.wants = some l := by
  obtain ⟨reporting, earlier, stage⟩ := d
  cases stage with
  | closing phase =>
      cases l with
      | intake => exact wants_of_free (Visit.owns_of_stuck hstuck)
      | pending | finished => exact absurd rfl (ne_of_stuck hstuck hmoves)
  | clearing c =>
      cases l with
      | pending => exact if_pos (Channel.Clear.wants_of_stuck (Option.map_eq_none_iff.mp hstuck))
      | intake | finished => exact absurd rfl (ne_of_stuck hstuck hmoves)
  | stopping n p =>
      cases l with
      | pending => exact if_pos (Channel.Push.wants_of_stuck (Option.map_eq_none_iff.mp hstuck))
      | intake | finished => exact absurd rfl (ne_of_stuck hstuck hmoves)
  | joining n => exact absurd (by cases l <;> rfl) (ne_of_stuck hstuck hmoves)
  | counting n outcome phase =>
      cases l with
      | finished =>
          exact wants_of_free (Visit.owns_of_stuck (Option.map_eq_none_iff.mp hstuck))
      | intake | pending => exact absurd rfl (ne_of_stuck hstuck hmoves)
  | claiming =>
      simp only [turn, stageTurn] at hstuck
      split at hstuck <;> cases hstuck
  | cleared n => cases hstuck
  | parting n =>
      simp only [turn, stageTurn] at hstuck
      split at hstuck <;> cases hstuck
  | ending outcome =>
      simp only [turn, stageTurn] at hstuck
      split at hstuck
      · split at hstuck <;> cases hstuck
      · cases hstuck

/-- Only the want of a lock keeps from going on what is done through a handle. -/
theorem HandleUse.wants_of_freed {use : HandleUse κ V E} {l : Lock}
    (hstuck : use.turn t choice s = (none : Option (Pipeline κ V E × List (Event V E ν) × _)))
    (hmoves : (use.turn t choice (s.freed l) :
      Option (Pipeline κ V E × List (Event V E ν) × _)).isSome = true) :
    use.wants = some l := by
  cases use with
  | schedule stage => exact stuck_of_nest hstuck hmoves Schedule.wants_of_freed
  | accepting phase =>
      cases l with
      | intake => exact wants_of_free (Visit.owns_of_stuck hstuck)
      | pending | finished => exact absurd rfl (ne_of_stuck hstuck hmoves)

/-- Only the want of a lock keeps from going on what is done through the owner. -/
theorem Use.wants_of_freed {use : Use κ V E} {l : Lock}
    (hstuck : use.turn plan t choice s = (none : Option (Pipeline κ V E × List (Event V E ν) × _)))
    (hmoves : (use.turn plan t choice (s.freed l) :
      Option (Pipeline κ V E × List (Event V E ν) × _)).isSome = true) :
    use.wants = some l := by
  cases use with
  | schedule stage => exact stuck_of_nest hstuck hmoves Schedule.wants_of_freed
  | draining stage => exact stuck_of_nest hstuck hmoves Drain.wants_of_freed
  | await stage => exact stuck_of_nest hstuck hmoves Await.wants_of_freed
  | pendingSize phase =>
      cases l with
      | pending =>
          exact wants_of_free (Visit.owns_of_stuck (Option.map_eq_none_iff.mp hstuck))
      | intake | finished => exact absurd rfl (ne_of_stuck hstuck hmoves)
  | finishedSize phase =>
      cases l with
      | finished =>
          exact wants_of_free (Visit.owns_of_stuck (Option.map_eq_none_iff.mp hstuck))
      | intake | pending => exact absurd rfl (ne_of_stuck hstuck hmoves)
  | drain _ | busy => cases hstuck

/-- **Only the want of a lock** keeps a call from going on that could if the lock were free. -/
theorem Call.wants_of_freed {l : Lock}
    (hstuck : turn plan t choice s call =
      (none : Option (Pipeline κ V E × List (Event V E ν) × _)))
    (hmoves : (turn plan t choice (s.freed l) call :
      Option (Pipeline κ V E × List (Event V E ν) × _)).isSome = true) :
    call.wants = some l := by
  cases call with
  | opening use =>
      simp only [turn] at hstuck
      split at hstuck <;> cases hstuck
  | inside use => exact stuck_of_nest hstuck hmoves Use.wants_of_freed
  | closing _ => cases hstuck
  | handle use => exact stuck_of_nest hstuck hmoves HandleUse.wants_of_freed
  | taking reporting =>
      have hsame : (turn plan t choice (s.freed l) (.taking reporting) :
          Option (Pipeline κ V E × List (Event V E ν) × _)).isSome =
          (turn plan t choice s (.taking reporting) :
            Option (Pipeline κ V E × List (Event V E ν) × _)).isSome := by
        have howned : (s.freed l).owned = s.owned := by cases l <;> rfl
        have hborrows : (s.freed l).borrows = s.borrows := by cases l <;> rfl
        simp only [turn, howned, hborrows]
        split
        · rfl
        · split <;> rfl
      rw [hstuck, hmoves] at hsame
      cases hsame
  | teardown d => exact stuck_of_nest hstuck hmoves Teardown.wants_of_freed
  | work w => exact stuck_of_nest hstuck hmoves Work.wants_of_freed

/-! ### The order of the locks -/

/-- A condition for wanting a lock. -/
theorem eq_true_of_wants {b : Bool} {l l' : Lock} (h : (if b then some l else none) = some l') :
    b = true := by
  cases b with
  | true => rfl
  | false => cases h

/-- A condition for not wanting a lock. -/
theorem eq_false_of_wants {b : Bool} {l l' : Lock} (h : (if b then none else some l) = some l') :
    b = false := by
  cases b with
  | true => cases h
  | false => rfl

/-- A scheduling that wants a lock owns none, or the intake's and wants another. -/
theorem Schedule.rank_lt {stage : Schedule κ V E} {l l' : Lock} (hwants : stage.wants = some l)
    (howns : stage.owns l' = true) : l'.rank < l.rank := by
  cases stage with
  | pushing p =>
      have hpush := Channel.Push.owns_of_wants (eq_true_of_wants hwants)
      cases l' with
      | intake =>
          obtain rfl : Lock.pending = l := by simpa [wants, eq_true_of_wants hwants] using hwants
          exact Nat.zero_lt_one
      | pending => exact absurd (hpush.symm.trans howns) nofun
      | finished => cases howns
  | entering _ => cases l' <;> cases howns
  | checking _ | deciding _ | leaving _ | dropping _ _ | dropped _ => cases hwants

/-- A worker that wants a lock owns none. -/
theorem Work.owns_of_wants {w : Work κ V E} {l : Lock} (h : w.wants = some l) (l' : Lock) :
    w.owns l' = false := by
  cases w with
  | popping p =>
      cases l' with
      | pending => exact eq_false_of_wants h
      | intake | finished => rfl
  | publishing p =>
      cases l' with
      | finished => exact Channel.Push.owns_of_wants (eq_true_of_wants h)
      | intake | pending => rfl
  | entering _ _ | starting _ _ | running _ _ | returning _ | resting | leaving | failing _
  | dying _ => cases h

/-- A drain that wants a lock owns none. -/
theorem Drain.owns_of_wants {stage : Drain κ V E} {l : Lock} (h : stage.wants = some l)
    (l' : Lock) : stage.owns l' = false := by
  cases stage with
  | popping _ p | checking phase =>
      cases l' with
      | finished => exact eq_false_of_wants h
      | intake | pending => rfl
  | going _ | delivering _ _ | failing _ => cases h

/-- An await that wants a lock owns none. -/
theorem Await.owns_of_wants {stage : Await κ V E} {l : Lock} (h : stage.wants = some l)
    (l' : Lock) : stage.owns l' = false := by
  cases stage with
  | popping p =>
      cases l' with
      | finished => exact eq_false_of_wants h
      | intake | pending => rfl
  | delivering _ | ending _ => cases h

/-- A teardown that wants a lock owns none. -/
theorem Teardown.Stage.owns_of_wants {stage : Teardown.Stage κ V E} {l : Lock}
    (h : stage.wants = some l) (l' : Lock) : stage.owns l' = false := by
  cases stage with
  | closing phase =>
      cases l' with
      | intake => exact eq_false_of_wants h
      | pending | finished => rfl
  | clearing c =>
      cases l' with
      | pending => exact Channel.Clear.owns_of_wants (eq_true_of_wants h)
      | intake | finished => rfl
  | stopping _ p =>
      cases l' with
      | pending => exact Channel.Push.owns_of_wants (eq_true_of_wants h)
      | intake | finished => rfl
  | counting _ _ phase =>
      cases l' with
      | finished => exact eq_false_of_wants h
      | intake | pending => rfl
  | claiming | cleared _ | parting _ | joining _ | ending _ => cases h

/-- **A call that wants a lock owns only locks of a lower rank.** -/
theorem Call.rank_lt {l l' : Lock} (hwants : call.wants = some l) (howns : call.owns l' = true) :
    l'.rank < l.rank := by
  -- all but a scheduling want a lock only when they own none
  have hnone : ∀ {b : Bool}, b = false → b = true → l'.rank < l.rank := by
    rintro b rfl hb
    cases hb
  cases call with
  | inside use =>
      cases use with
      | schedule stage => exact Schedule.rank_lt hwants howns
      | draining stage => exact hnone (Drain.owns_of_wants hwants l') howns
      | await stage => exact hnone (Await.owns_of_wants hwants l') howns
      | pendingSize phase =>
          cases l' with
          | pending => exact hnone (eq_false_of_wants hwants) howns
          | intake | finished => cases howns
      | finishedSize phase =>
          cases l' with
          | finished => exact hnone (eq_false_of_wants hwants) howns
          | intake | pending => cases howns
      | drain _ | busy => cases hwants
  | handle use =>
      cases use with
      | schedule stage => exact Schedule.rank_lt hwants howns
      | accepting phase =>
          cases l' with
          | intake => exact hnone (eq_false_of_wants hwants) howns
          | pending | finished => cases howns
  | teardown d => exact hnone (Teardown.Stage.owns_of_wants hwants l') howns
  | work w => exact hnone (Work.owns_of_wants hwants l') howns
  | opening _ | closing _ | taking _ => cases hwants

/-! ### The machine of a pipeline -/

/-- A call that begins has not taken a lock. -/
theorem owns_call (request : Request κ V E) (l : Lock) : request.call.owns l = false := by
  cases request <;> cases l <;> rfl

/-- A scheduling that goes on after code owns what it owned. -/
theorem Schedule.owns_resume {ρ : Type} (stage : Schedule κ V E) (result : Except Fault ρ)
    (l : Lock) : (stage.resume result).owns l = stage.owns l := by
  cases stage with
  | dropped outcome => cases outcome <;> cases l <;> rfl
  | checking _ | entering _ | deciding _ | pushing _ | leaving _ | dropping _ _ => rfl

/-- A call that owned nothing while it waited for code owns nothing when it goes on. -/
theorem owns_resume (call : Call κ V E) (result : Except Fault (Except E V))
    (h : ∀ l, call.owns l = false) (l : Lock) : (resume call result).owns l = false := by
  cases call with
  | inside use =>
      cases use with
      | schedule stage => exact (stage.owns_resume result l).trans (h l)
      | draining stage =>
          cases result with
          | ok _ => exact h l
          | error _ => cases l <;> rfl
      | await stage =>
          cases result with
          | ok _ => exact h l
          | error _ => cases l <;> rfl
      | drain _ | pendingSize _ | finishedSize _ | busy => exact h l
  | handle use =>
      cases use with
      | schedule stage => exact (stage.owns_resume result l).trans (h l)
      | accepting _ => exact h l
  | teardown d =>
      obtain ⟨reporting, earlier, stage⟩ := d
      cases stage with
      | clearing c =>
          cases l with
          | pending =>
              cases c with
              | taking phase => cases result <;> exact h .pending
              | finalizing _ _ fault => cases result <;> cases fault <;> rfl
              | broken => cases result <;> rfl
          | intake | finished => rfl
      | claiming | closing _ | cleared _ | stopping _ _ | parting _ | joining _ | counting _ _ _
      | ending _ => exact h l
  | work w =>
      cases w with
      | running ticket task => cases result <;> cases l <;> rfl
      | publishing p =>
          cases p with
          | hooking => cases l <;> rfl
          | adding _ _ | notifying | ending _ => exact h l
      | popping _ | entering _ _ | starting _ _ | returning _ | resting | leaving | failing _
      | dying _ => exact h l
  | opening _ | closing _ | taking _ => exact h l

/-- **The calls of a pipeline keep to its locks.** -/
theorem locks_fits (plan : Plan κ) : locks.Fits (library (V := V) (E := E) (ν := ν) plan) where
  begins := by
    rintro call ⟨request, rfl⟩
    refine ⟨⟨isSound_call request, ?_⟩, owns_call request⟩
    cases request <;> first | trivial | exact fun l => by cases l <;> rfl
  resume := by
    refine fun call result hsound => ⟨⟨hsound.1.resume result, ?_⟩, owns_resume call result⟩
    cases call with
    | opening use => exact hsound.2
    | inside _ | closing _ | handle _ | taking _ | teardown _ | work _ => trivial
  keeps _ _ _ _ _ _ _ hsound hturn :=
    ⟨Call.steady_of_turn hsound.2 hturn,
      fun _ hnext => ⟨hsound.1.next hturn hnext, Call.isIdle_of_next hturn hnext⟩⟩
  abort _ _ _ _ _ _ hsound hturn := (eq_of_abort hsound.1 hturn).1
  wants _ _ _ _ _ hstuck hmoves := Call.wants_of_freed hstuck hmoves
  order _ _ _ hwants howns := Call.rank_lt hwants howns

/-! ### All runs -/

section Runs

variable {next : κ → Move κ ω (Request κ V E) Answer (Except E V) ν} {world : ω} {codes : List κ}

/-- A run of a pipeline starts with all locks free. -/
theorem locks_start (plan : Plan κ) (world : ω) (codes : List κ) :
    locks.Starts (library plan) (opening : View κ V E ν) (start world codes) where
  shows := shows_start plan world codes
  live := rfl
  sound := by
    intro t call hcall
    rw [eq_of_mem_opening hcall]
    exact ⟨⟨trivial, trivial, fun _ _ => nofun⟩, trivial⟩
  held := by
    refine ⟨fun t l => ?_, fun t call hcall l => ?_⟩
    · have hnone : ((opening : View κ V E ν).calls t).active.any (locks.owns · l) = false := by
        rcases calls_opening (V := V) (E := E) (ν := ν) t with ⟨-, hcalls⟩ | ⟨-, hcalls⟩ <;>
          rw [hcalls]
        · cases l <;> rfl
        · rfl
      rw [hnone]
      cases l <;> exact ⟨nofun, nofun⟩
    · rw [eq_of_mem_opening (List.mem_append_right _ hcall)]
      cases l <;> rfl

/-- **No code runs under a lock.** In every run of a pipeline, at every moment:

* a thread that is in code, be it its own, a body, a callback, the hook or a destructor, owns no
  lock;
* a thread that waits for the intake's lock owns neither channel's lock;
* no thread waits for a lock that it owns;
* no circle of threads waits for one another's locks.

The same holds of every channel that is used by itself. -/
theorem code_under_no_lock (plan : Plan κ)
    (next : κ → Move κ ω (Request κ V E) Answer (Except E V) ν) (world : ω) (codes : List κ)
    {κ' ω' α ρ ν' : Type} (hook : Option κ') (finalizer : α → Option κ')
    (next' : κ' → Move κ' ω' (Channel.Request α) (Channel.Answer α) ρ ν') (world' : ω')
    (codes' : List κ') :
    (∀ s, (machine plan next).Reach (start world codes) s →
      (∀ t position rest, s.stack t = .code position :: rest → ∀ l, owner s.shared l ≠ some t) ∧
      (∀ t, locks.Waits (machine plan next) s t .intake →
        ∀ l, l ≠ .intake → owner s.shared l ≠ some t) ∧
      (∀ t l, locks.Waits (machine plan next) s t l → owner s.shared l ≠ some t) ∧
      ∀ t, ¬ Relation.TransGen (locks.WaitsOn (machine plan next) s) t t) ∧
    ∀ c, (Channel.machine hook finalizer next').Reach (.ofCodes Channel.empty world' codes') c →
      (∀ t position rest, c.stack t = .code position :: rest → c.shared.owner ≠ some t) ∧
      (∀ t, Channel.locks.Waits (Channel.machine hook finalizer next') c t () →
        c.shared.owner ≠ some t) ∧
      ∀ t, ¬ Relation.TransGen
        (Channel.locks.WaitsOn (Channel.machine hook finalizer next') c) t t := by
  refine ⟨fun s h => ?_, fun c h => ?_⟩
  · have hsafe := (locks_fits plan).safe (machine_fits plan next) (locks_start plan world codes) h
    refine ⟨hsafe.code, fun t hwaits l hl howner => ?_, fun t l => hsafe.owner_ne, hsafe.acyclic⟩
    exact absurd (hsafe.rank t .intake l hwaits howner) (Nat.not_lt_zero _)
  · have hsafe := (Channel.locks_fits hook finalizer).safe
      (Channel.machine_fits hook finalizer next') (Channel.locks_start world' codes') h
    exact ⟨fun t position rest hstack => hsafe.code t position rest hstack (),
      fun t => hsafe.owner_ne, hsafe.acyclic⟩

/-! A run in which the worker runs the body of a first task while a second one is scheduled. -/

/-- The state in which the body runs, and the scheduling adds its task under two locks. -/
def duringBody : Wished :=
  wishing.settle [(1, .go 0)] 2
    (wishing.settle [(0, .go 0)] 6 (wishing.settle [(1, .go 0)] 13 (start () [twoAndShutDown])))

theorem code_under_no_lock_duringBody :
    owner duringBody.shared .intake = some 1 ∧ owner duringBody.shared .pending = some 1 ∧
      (∃ position rest, duringBody.stack workerThread = .code position :: rest) ∧
      (∀ l, owner duringBody.shared l ≠ some workerThread) ∧
      (∀ t, ¬ Relation.TransGen (locks.WaitsOn wishing duringBody) t t) ∧
      Channel.twoInOneOut.shared.value = [2] ∧
      ∀ t, ¬ Relation.TransGen (Channel.locks.WaitsOn
        (Channel.machine none (fun _ => none) (Script.next id)) Channel.twoInOneOut) t t := by
  have hreach : wishing.Reach (start () [twoAndShutDown]) duringBody :=
    Machine.reach_settle _ _ (Machine.reach_settle _ _ (Machine.reach_settle _ _ .start))
  obtain ⟨hpipeline, hchannel⟩ := code_under_no_lock {} (Script.next Wish.request) ()
    [twoAndShutDown] none (fun _ => none) (Script.next id) () [Channel.pushTwoPopOne]
  obtain ⟨hcode, -, -, hcircle⟩ := hpipeline duringBody hreach
  exact ⟨rfl, rfl, ⟨_, _, rfl⟩, hcode workerThread _ _ rfl, hcircle, rfl,
    (hchannel Channel.twoInOneOut (Machine.reach_settle [(0, .go 0)] 40 .start)).2.2⟩

end Runs

end Offload.Pipeline
