import Offload.Proofs.Pipeline.Deadlock

/-!
# Calls that wait for nothing but a lock

A call is **prompt** if it can go on whenever the lock is free that it wants, and whenever it wants
none. So a thread that makes a prompt call can make a step, or it waits for a lock; as no circle of
threads waits for one another's locks, some thread can make a step then.

Whoever only runs a critical section is prompt, so a push is, and so is a scheduling.

Whoever owns a channel's lock is in the midst of a critical section, so it can always go on.

## Main results

* `Call.IsPrompt.moves_or_waits`: a thread that makes a prompt call moves or waits for a lock.
* `exists_waitsOn`: a thread that waits for a lock waits for another thread.
* `isSome_step_of_owner`: who owns a channel's lock moves.
-/

namespace Offload

/-! ### Parts -/

section Parts

variable {κ α β : Type} {t : Tid} {choice : Choice}

/-- How many steps a visit that only runs a critical section has to go. -/
def Phase.toGo : Phase β → Nat
  | .arriving => 3
  | .acting _ => 2
  | .leaving _ => 1
  | .testing _ | .drowsy | .asleep | .overslept => 0

theorem Phase.toGo_le (phase : Phase β) : phase.toGo ≤ 3 := by
  cases phase <;> simp [toGo]

/-- A visit that only runs a critical section goes on when the lock is free, or its own. -/
theorem Visit.isSome_turn_plain {body : Critical α β} {m : Monitor α} {phase : Phase β}
    (h : phase.IsPlain) :
    ((Visit.plain body).turn t choice m phase).isSome = (phase.owns || m.owner.isNone) := by
  cases phase with
  | arriving =>
      rw [turn, Option.isSome_map, Monitor.acquire]
      cases m.owner <;> rfl
  | acting again => rfl
  | leaving outcome => cases outcome <;> rfl
  | testing _ | drowsy | asleep | overslept => exact h.elim

/-- How many steps a push without a hook has to go. -/
def Channel.Push.toGo : Push α → Nat
  | .adding _ phase => phase.toGo + 2
  | .notifying => 2
  | .hooking => 1
  | .ending _ => 0

theorem Channel.Push.toGo_le (p : Push α) : p.toGo ≤ 5 := by
  cases p with
  | adding item phase => exact Nat.add_le_add_right phase.toGo_le 2
  | notifying | hooking | ending _ => simp [toGo]

/-- Whether a push without a hook is on its way to its end. -/
def Channel.Push.Adds : Push α → Prop
  | .adding _ phase => phase.IsPlain
  | .notifying | .hooking => True
  | .ending _ => False

/-- A push without a hook goes on to its end. -/
theorem Channel.Push.adds_of_turn {p : Push α} {c c' : Channel α} {marks : List (Mark α)}
    {r : Turn κ (Push α) Unit} (h : p.turn none t choice c = some (c', marks, r)) (hp : p.Adds) :
    (∃ p', r = .stay p' ∧ p'.Adds ∧ p'.toGo < p.toGo) ∨ r = .ret () := by
  cases p with
  | adding item phase =>
      obtain ⟨⟨c₁, progress⟩, hturn, heq⟩ := Option.map_eq_some_iff.mp h
      cases heq
      obtain ⟨rfl, -, rfl⟩ | ⟨again, rfl, -, rfl⟩ | ⟨answer, rfl, -, rfl⟩ :=
        Visit.plain_cases hturn hp
      · exact .inl ⟨_, rfl, trivial, Nat.lt_succ_self _⟩
      · exact .inl ⟨_, rfl, trivial, Nat.lt_succ_self _⟩
      · exact .inl ⟨_, rfl, trivial, Nat.lt_succ_self _⟩
  | notifying =>
      cases h
      exact .inl ⟨_, rfl, trivial, Nat.lt_succ_self _⟩
  | hooking =>
      cases h
      exact .inr rfl
  | ending outcome => exact hp.elim

/-- A push goes on when the lock is free that it wants. -/
theorem Channel.Push.isSome_turn {hook : Option κ} {p : Push α} {c : Channel α}
    (h : p.IsPlain) : (p.turn hook t choice c).isSome = (!p.wants || c.owner.isNone) := by
  cases p with
  | adding item phase =>
      rw [turn, Option.isSome_map, Visit.isSome_turn_plain h, wants, Bool.not_not]
  | notifying => rfl
  | hooking => cases hook <;> rfl
  | ending outcome => cases outcome <;> rfl

/-- A count goes on when the lock is free, or its own. -/
theorem Channel.isSome_sizeTurn {phase : Phase Nat} {c : Channel α} (h : phase.IsPlain) :
    (Channel.sizeTurn t choice c phase : Option (Channel α × Turn κ (Phase Nat) Nat)).isSome =
      (phase.owns || c.owner.isNone) := by
  rw [sizeTurn, Option.isSome_map, Visit.isSome_turn_plain h]

/-- Whether a clear is in a phase in which clears can be. -/
def Channel.Clear.IsPlain : Clear α → Prop
  | .taking phase => phase.IsPlain
  | .finalizing _ _ _ | .broken => True

/-- A clear goes on when the lock is free that it wants. -/
theorem Channel.Clear.isSome_turn {finalizer : α → Option κ} {clear : Clear α} {c : Channel α}
    (h : clear.IsPlain) :
    (clear.turn finalizer t choice c).isSome = (!clear.wants || c.owner.isNone) := by
  cases clear with
  | taking phase =>
      rw [turn, Option.isSome_map, Visit.isSome_turn_plain h, wants, Bool.not_not]
  | finalizing count rest fault =>
      cases rest with
      | nil => cases fault <;> rfl
      | cons item rest => rfl
  | broken => rfl

/-- A push that owns the lock goes on. -/
theorem Channel.Push.isSome_turn_of_owns {hook : Option κ} {p : Push α} {c : Channel α}
    (h : p.owns = true) : (p.turn hook t choice c).isSome = true := by
  cases p with
  | adding item phase =>
      rw [turn, Option.isSome_map]
      exact Visit.isSome_turn h t choice
  | notifying | hooking | ending _ => cases h

/-- So does a pop. -/
theorem Channel.Pop.isSome_turn_of_owns {p : Pop α} {c : Channel α} (h : p.owns = true) :
    (p.turn t choice c : Option (Channel α × List (Mark α) × Turn κ (Pop α) (Option α))).isSome =
      true := by
  rw [turn, Option.isSome_map]
  exact Visit.isSome_turn h t choice

/-- So does a count. -/
theorem Channel.isSome_sizeTurn_of_owns {phase : Phase Nat} {c : Channel α}
    (h : phase.owns = true) :
    (Channel.sizeTurn t choice c phase : Option (Channel α × Turn κ (Phase Nat) Nat)).isSome =
      true := by
  rw [sizeTurn, Option.isSome_map]
  exact Visit.isSome_turn h t choice

/-- So does a clear. -/
theorem Channel.Clear.isSome_turn_of_owns {finalizer : α → Option κ} {clear : Clear α}
    {c : Channel α} (h : clear.owns = true) :
    (clear.turn finalizer t choice c).isSome = true := by
  cases clear with
  | taking phase =>
      rw [turn, Option.isSome_map]
      exact Visit.isSome_turn h t choice
  | finalizing _ _ _ | broken => cases h

end Parts

namespace Pipeline

variable {κ ω V E ν : Type} {plan : Plan κ} {t : Tid} {choice : Choice} {s : Pipeline κ V E}

/-- Whether the lock is free that something wants. -/
def isFree (s : Pipeline κ V E) (wants : Option Lock) : Bool :=
  wants.all fun l => (owner s l).isNone

theorem isFree_ite (s : Pipeline κ V E) (b : Bool) (l : Lock) :
    isFree s (if b then some l else none) = (!b || (owner s l).isNone) := by
  cases b <;> rfl

theorem isFree_unless (s : Pipeline κ V E) (b : Bool) (l : Lock) :
    isFree s (if b then none else some l) = (b || (owner s l).isNone) := by
  cases b <;> rfl

/-- A scheduling goes on when the lock is free that it wants. -/
theorem Schedule.isSome_turn {stage : Schedule κ V E} (h : stage.IsProper) :
    (stage.turn t choice s : Option (Pipeline κ V E × List (Event V E ν) ×
      Turn κ (Schedule κ V E) (Except Failure Unit))).isSome = isFree s stage.wants := by
  cases stage with
  | checking job => cases hjob : job.task? <;> simp [turn, hjob, wants, isFree]
  | entering task =>
      rw [turn, Option.isSome_map, Monitor.acquire]
      cases howner : s.intake.owner <;> simp [wants, isFree, owner, howner]
  | deciding task => cases hopen : s.intake.value <;> simp [turn, hopen, wants, isFree]
  | pushing p =>
      rw [turn, Option.isSome_map, Channel.Push.isSome_turn h.1, wants, isFree_ite]
      rfl
  | leaving refused => rcases refused with _ | _ | _ <;> rfl
  | dropping onDrop failure => cases onDrop <;> rfl
  | dropped outcome => cases outcome <;> rfl

/-- Whether a call waits for nothing but a lock. -/
def Call.IsPrompt (plan : Plan κ) (ν : Type) (t : Tid) (call : Call κ V E) : Prop :=
  ∀ choice s, (turn plan t choice s call : Option (Pipeline κ V E × List (Event V E ν) ×
    Turn κ (Call κ V E) Answer)).isSome = isFree s call.wants

/-- A call that schedules waits for nothing but a lock. -/
theorem Call.isPrompt_scheduling {call : Call κ V E} {stage : Schedule κ V E}
    (hpart : call.part = .scheduling stage) (hproper : call.part.IsProper) :
    call.IsPrompt plan ν t := by
  intro choice s
  cases call with
  | inside use =>
      cases use with
      | schedule stage =>
          rw [turn, Option.isSome_map, Use.turn, Option.isSome_map, Schedule.isSome_turn hproper]
          rfl
      | drain _ | draining _ | await _ | pendingSize _ | finishedSize _ | busy => cases hpart
  | handle use =>
      cases use with
      | schedule stage =>
          rw [turn, Option.isSome_map, HandleUse.turn, Option.isSome_map,
            Schedule.isSome_turn hproper]
          rfl
      | accepting _ => cases hpart
  | opening _ | closing _ | taking _ | teardown _ | work _ => cases hpart

/-- So does a call that reads the intake and only runs a critical section. -/
theorem Call.isPrompt_reading {call : Call κ V E} {phase : Phase Bool}
    (hpart : call.part = .reading phase) (hplain : phase.IsPlain) : call.IsPrompt plan ν t := by
  intro choice s
  cases call with
  | handle use =>
      cases use with
      | accepting phase' =>
          obtain rfl : phase' = phase := Part.reading.inj hpart
          rw [turn, Option.isSome_map, HandleUse.turn, Option.isSome_map, readAccepting,
            Visit.isSome_turn_plain hplain, Call.wants]
          exact (isFree_unless s phase'.owns .intake).symm
      | schedule _ => cases hpart
  | inside use => cases use <;> cases hpart
  | opening _ | closing _ | taking _ | teardown _ | work _ => cases hpart

/-- A use that begins waits for nothing. -/
theorem Call.isPrompt_opening (use : Use κ V E) : (Call.opening use).IsPrompt plan ν t := by
  intro choice s
  cases howned : s.owned <;> simp [turn, howned, wants, isFree]

/-- A thread that makes a prompt call can make a step, or it waits for a lock. -/
theorem Call.IsPrompt.moves_or_waits {next : κ → Move κ ω (Request κ V E) Answer (Except E V) ν}
    {s : State κ ω (Pipeline κ V E) (Call κ V E) Answer (Event V E ν)} {call : Call κ V E}
    {rest : Stack κ (Call κ V E) Answer} (h : call.IsPrompt plan ν t) (hlive : s.aborted = false)
    (hstack : s.stack t = .call call :: rest) :
    (∀ choice, ((machine plan next).step t choice s).isSome = true) ∨
      ∃ l, locks.Waits (machine plan next) s t l := by
  have hstep : ∀ s' : State κ ω (Pipeline κ V E) (Call κ V E) Answer (Event V E ν),
      s'.aborted = false → s'.stack t = .call call :: rest → ∀ choice,
        ((machine plan next).step t choice s').isSome = isFree s'.shared call.wants :=
    fun s' hlive' hstack' choice =>
      (Machine.isSome_step_call hlive' hstack' choice).trans (h choice s'.shared)
  cases hwants : call.wants with
  | none => exact .inl fun choice => by rw [hstep s hlive hstack, hwants]; rfl
  | some l =>
      cases hfree : isFree s.shared call.wants with
      | true => exact .inl fun choice => by rw [hstep s hlive hstack, hfree]
      | false =>
          refine .inr ⟨l, fun choice => ?_, .go 0, ?_⟩
          · rw [← Option.isNone_iff_eq_none, ← Option.not_isSome, hstep s hlive hstack, hfree]
            rfl
          · rw [hstep (locks.freed s l) hlive hstack, hwants]
            cases l <;> rfl

/-! ### Owners of locks -/

/-- A scheduling that owns a channel's lock goes on. -/
theorem Schedule.isSome_turn_of_owns {stage : Schedule κ V E} {l : Lock} (h : stage.owns l = true)
    (hl : l ≠ .intake) : (stage.turn t choice s : Option (Pipeline κ V E × List (Event V E ν) ×
      Turn κ (Schedule κ V E) (Except Failure Unit))).isSome = true := by
  cases l with
  | intake => exact absurd rfl hl
  | pending =>
      cases stage with
      | pushing p => exact (Option.isSome_map ..).trans (Channel.Push.isSome_turn_of_owns h)
      | checking _ | entering _ | deciding _ | leaving _ | dropping _ _ | dropped _ => cases h
  | finished => cases h

/-- So does the worker. -/
theorem Work.isSome_turn_of_owns {w : Work κ V E} {l : Lock} (h : w.owns l = true) :
    (w.turn plan t choice s : Option (Pipeline κ V E × List (Event V E ν) ×
      Turn κ (Work κ V E) Unit)).isSome = true := by
  cases w with
  | popping p =>
      cases l with
      | pending => exact (Option.isSome_map ..).trans (Channel.Pop.isSome_turn_of_owns h)
      | intake | finished => cases h
  | publishing p =>
      cases l with
      | finished => exact (Option.isSome_map ..).trans (Channel.Push.isSome_turn_of_owns h)
      | intake | pending => cases h
  | entering _ _ | starting _ _ | running _ _ | returning _ | resting | leaving | failing _
  | dying _ => cases h

/-- So does what uses the pipeline through its owner. -/
theorem Use.isSome_turn_of_owns {use : Use κ V E} {l : Lock} (h : use.owns l = true)
    (hl : l ≠ .intake) : (use.turn plan t choice s : Option (Pipeline κ V E × List (Event V E ν) ×
      Turn κ (Use κ V E) Answer)).isSome = true := by
  cases use with
  | schedule stage => exact (Option.isSome_map ..).trans (Schedule.isSome_turn_of_owns h hl)
  | draining stage =>
      refine (Option.isSome_map ..).trans ?_
      cases stage with
      | popping left p =>
          cases l with
          | finished => exact (Option.isSome_map ..).trans (Channel.Pop.isSome_turn_of_owns h)
          | intake | pending => cases h
      | checking phase =>
          cases l with
          | finished => exact (Option.isSome_map ..).trans (Channel.isSome_sizeTurn_of_owns h)
          | intake | pending => cases h
      | going _ | delivering _ _ | failing _ => cases h
  | await stage =>
      refine (Option.isSome_map ..).trans ?_
      cases stage with
      | popping p =>
          cases l with
          | finished => exact (Option.isSome_map ..).trans (Channel.Pop.isSome_turn_of_owns h)
          | intake | pending => cases h
      | delivering _ | ending _ => cases h
  | pendingSize phase =>
      cases l with
      | pending => exact (Option.isSome_map ..).trans (Channel.isSome_sizeTurn_of_owns h)
      | intake | finished => cases h
  | finishedSize phase =>
      cases l with
      | finished => exact (Option.isSome_map ..).trans (Channel.isSome_sizeTurn_of_owns h)
      | intake | pending => cases h
  | drain _ | busy => cases h

/-- So does a teardown. -/
theorem Teardown.isSome_turn_of_owns {d : Teardown κ V E} {l : Lock} (h : d.stage.owns l = true) :
    (d.turn t choice s : Option (Pipeline κ V E × List (Event V E ν) ×
      Turn κ (Teardown κ V E) (Except Failure Unit))).isSome = true := by
  obtain ⟨reporting, earlier, stage⟩ := d
  cases stage with
  | closing phase =>
      cases l with
      | intake => exact (Option.isSome_map ..).trans (Visit.isSome_turn h t choice)
      | pending | finished => cases h
  | clearing c =>
      cases l with
      | pending => exact (Option.isSome_map ..).trans (Channel.Clear.isSome_turn_of_owns h)
      | intake | finished => cases h
  | stopping n p =>
      cases l with
      | pending => exact (Option.isSome_map ..).trans (Channel.Push.isSome_turn_of_owns h)
      | intake | finished => cases h
  | counting n outcome phase =>
      cases l with
      | finished => exact (Option.isSome_map ..).trans (Channel.isSome_sizeTurn_of_owns h)
      | intake | pending => cases h
  | claiming | cleared _ | parting _ | joining _ | ending _ => cases h

/-- A call that owns a channel's lock goes on. -/
theorem Call.isSome_turn_of_owns {call : Call κ V E} {l : Lock} (h : call.owns l = true)
    (hl : l ≠ .intake) : (turn plan t choice s call : Option (Pipeline κ V E ×
      List (Event V E ν) × Turn κ (Call κ V E) Answer)).isSome = true := by
  cases call with
  | inside use => exact (Option.isSome_map ..).trans (Use.isSome_turn_of_owns h hl)
  | handle use =>
      refine (Option.isSome_map ..).trans ?_
      cases use with
      | schedule stage => exact (Option.isSome_map ..).trans (Schedule.isSome_turn_of_owns h hl)
      | accepting phase =>
          cases l with
          | intake => exact absurd rfl hl
          | pending | finished => cases h
  | teardown d => exact (Option.isSome_map ..).trans (Teardown.isSome_turn_of_owns h)
  | work w => exact (Option.isSome_map ..).trans (Work.isSome_turn_of_owns h)
  | opening _ | closing _ | taking _ => cases h

/-- A lock that is free is free. -/
theorem freed_eq_self {l : Lock} (h : owner s l = none) : freed s l = s := by
  cases l with
  | intake =>
      have hsame : { s.intake with owner := none } = s.intake := by
        rw [← show s.intake.owner = none from h]
      exact congrArg (fun intake => { s with intake := intake }) hsame
  | pending =>
      have hsame : { s.pending with owner := none } = s.pending := by
        rw [← show s.pending.owner = none from h]
      exact congrArg (fun pending => { s with pending := pending }) hsame
  | finished =>
      have hsame : { s.finished with owner := none } = s.finished := by
        rw [← show s.finished.owner = none from h]
      exact congrArg (fun finished => { s with finished := finished }) hsame

/-- A thread that waits for a lock waits for another thread that owns it. -/
theorem exists_waitsOn {next : κ → Move κ ω (Request κ V E) Answer (Except E V) ν}
    {world : ω} {codes : List κ}
    {s : State κ ω (Pipeline κ V E) (Call κ V E) Answer (Event V E ν)} {l : Lock}
    (h : (machine plan next).Reach (start world codes) s)
    (hwaits : locks.Waits (machine plan next) s t l) :
    ∃ u, u ≠ t ∧ locks.WaitsOn (machine plan next) s t u := by
  have hsafe := (locks_fits plan).safe (machine_fits plan next) (locks_start plan world codes) h
  cases howner : owner s.shared l with
  | none =>
      obtain ⟨hstuck, choice, hmoves⟩ := hwaits
      have hsame : locks.freed s l = s :=
        congrArg (fun shared => { s with shared := shared }) (freed_eq_self howner)
      rw [hsame, hstuck choice] at hmoves
      cases hmoves
  | some u =>
      refine ⟨u, ?_, l, hwaits, howner⟩
      rintro rfl
      exact hsafe.owner_ne hwaits howner

/-- **Who owns a channel's lock can make a step.** -/
theorem isSome_step_of_owner {next : κ → Move κ ω (Request κ V E) Answer (Except E V) ν}
    {world : ω} {codes : List κ}
    {s : State κ ω (Pipeline κ V E) (Call κ V E) Answer (Event V E ν)} {l : Lock}
    (h : (machine plan next).Reach (start world codes) s) (hlive : s.aborted = false)
    (hl : l ≠ .intake) (howner : owner s.shared l = some t) (choice : Choice) :
    ((machine plan next).step t choice s).isSome = true := by
  have howns := ((locks_fits plan).owner_iff (machine_fits plan next)
    (locks_start plan world codes) h hlive t l).mp howner
  cases hactive : (callsOf (s.stack t)).active with
  | none =>
      rw [hactive] at howns
      cases howns
  | some call =>
      rw [hactive] at howns
      obtain ⟨rest, hstack⟩ := exists_of_active hactive
      exact (Machine.isSome_step_call hlive hstack choice).trans
        (Call.isSome_turn_of_owns howns hl)

end Pipeline

end Offload
