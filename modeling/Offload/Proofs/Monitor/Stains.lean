import Offload.Proofs.Monitor.Steps
import Offload.Proofs.Twins

/-!
# The mark of poison

A poisoned monitor differs from one that is not poisoned in its mark, and a visit looks at the mark
only when it takes the lock back after a sleep. So as long as no visit falls asleep, a run goes the
same way from two states that differ in the mark only, and stays the same but for it.

## Main definitions

* `Guarded.stained`, `State.stained`: the same guarded value, or state, with the given mark.
* `Guarded.Awake`: no visit is about to fall asleep, asleep, or awake again.
* `Guarded.Content`: no visit that tests its predicate finds it false.

## Main results

* `Guarded.turn_stained`, `Guarded.step_stained`: the mark does not matter to one turn, to one step.
* `Guarded.runs_stained`: it does not matter to a run.
* `Guarded.poisoned_of_step`, `Guarded.value_of_step`: what any step does to mark and value.
-/

namespace Offload

variable {κ ω α β ρ ε : Type}

/-! ### Marks -/

/-- The same monitor, poisoned or not. -/
def Monitor.stained (m : Monitor α) (p : Bool) : Monitor α :=
  { m with poisoned := p }

/-- The same guarded value, poisoned or not. -/
def Guarded.stained (g : Guarded α) (p : Bool) : Guarded α :=
  { g with monitor := g.monitor.stained p }

/-- The same state of threads that use a guarded value, poisoned or not. -/
def State.stained {γ δ : Type} (s : State κ ω (Guarded α) γ δ ε) (p : Bool) :
    State κ ω (Guarded α) γ δ ε :=
  { s with shared := s.shared.stained p }

/-- The fault with which something has ended, if it has. -/
def faultOf {δ : Type} : Except Fault δ → Option Fault
  | .error fault => some fault
  | .ok _ => none

/-- Whether a visit in this phase has found its predicate false, and has not tested it again. -/
def Phase.dozes : Phase β → Bool
  | .drowsy | .asleep | .overslept => true
  | .arriving | .testing _ | .acting _ | .leaving _ => false

/-- The fault with which a visit in this phase is about to leave. -/
def Phase.carried? : Phase β → Option Fault
  | .leaving outcome => faultOf outcome
  | .arriving | .testing _ | .drowsy | .asleep | .overslept | .acting _ => none

theorem Phase.carried?_eq_some {phase : Phase β} {fault : Fault} :
    phase.carried? = some fault ↔ phase = .leaving (.error fault) := by
  cases phase with
  | leaving outcome => cases outcome <;> simp [carried?, faultOf]
  | _ => simp [carried?]

namespace Monitor

variable {m : Monitor α}

theorem acquire_stained (t : Tid) (p : Bool) :
    (m.stained p).acquire t = (m.acquire t).map (·.stained p) := by
  rw [acquire, acquire, stained]
  cases hfree : m.owner.isNone <;> rfl

end Monitor

namespace Visit

variable {v : Visit α β} {t : Tid} {choice : Choice} {m m' : Monitor α} {phase : Phase β}
  {progress : Progress β}

/-- **The mark does not matter** to a visit that does not doze. -/
theorem turn_stained (hphase : phase.dozes = false) (p : Bool) :
    v.turn t choice (m.stained p) phase = (v.turn t choice m phase).map fun (m', progress) =>
      (m'.stained (p || phase.carried?.isSome), progress) := by
  cases phase with
  | drowsy | asleep | overslept => cases hphase
  | arriving =>
      rw [turn, turn, Monitor.acquire_stained]
      cases m.acquire t <;> simp [Phase.carried?]
  | testing again =>
      rw [turn, turn]
      cases v.await <;> simp [Phase.carried?, Monitor.stained]
  | acting again => simp [turn, Phase.carried?, Monitor.stained]
  | leaving outcome =>
      cases outcome with
      | ok answer =>
          simp [turn, Phase.carried?, faultOf, Monitor.stained, Monitor.release]
      | error fault =>
          simp [turn, Phase.carried?, faultOf, Monitor.stained, Monitor.releaseFaulted]

/-- A visit poisons its monitor exactly when it leaves with a fault. -/
theorem poisoned_eq_of_turn (h : v.turn t choice m phase = some (m', progress)) :
    m'.poisoned = (m.poisoned || phase.carried?.isSome) := by
  cases turned_of_turn h with
  | leftFaulted fault => exact (Bool.or_true _).symm
  | _ => exact (Bool.or_false _).symm

/-- A visit dozes only after it has found its predicate false. -/
theorem dozes_of_turn {phase' : Phase β} (h : v.turn t choice m phase = some (m', .on phase'))
    (hphase : phase.dozes = false)
    (hcontent : ∀ q again, v.await = some q → phase = .testing again → q m.value ≠ .ok false) :
    phase'.dozes = false := by
  generalize hprogress : Progress.on phase' = progress at h
  cases turned_of_turn h with
  | slept | stirred _ | expired _ _ | woken _ _ | wokenLate _ => cases hphase
  | arrived _ =>
      cases hprogress
      split <;> rfl
  | @tested q again hq =>
      cases hprogress
      have hfound := hcontent q again hq rfl
      rw [afterTest.eq_def]
      split
      · rfl
      · rfl
      · next hfalse => exact absurd hfalse hfound
  | untested _ _ | acted _ =>
      cases hprogress
      rfl
  | left _ | leftFaulted _ => cases hprogress

end Visit

/-- The calls among the layers after a step: those that were there, one of which may go on after the
code that it ran, and the one that was made or goes on in this step. -/
theorem Machine.call_mem_layers {σ γ δ : Type} {m : Machine κ ω σ γ δ ρ ε}
    {e : Machine.Effect κ γ δ ρ} {rest : Stack κ γ δ} {call' : γ}
    (h : .call call' ∈ e.layers m rest) :
    .call call' ∈ rest ∨ (∃ result call, .call call ∈ rest ∧ call' = m.resume call result) ∨
      (∃ k, e = .called call' k) ∨ e = .turned (.stay call') ∨
        ∃ code, e = .turned (.run code call') := by
  have hfinished : ∀ {answer : Except Fault δ},
      .call call' ∈ Machine.finishCall answer rest → .call call' ∈ rest := by
    intro answer hmem
    rcases rest with _ | ⟨_ | _ | k, rest⟩
    case cons.wait =>
      rcases List.mem_cons.mp hmem with heq | hmem
      · cases heq
      · exact List.mem_cons_of_mem _ hmem
    all_goals exact hmem
  cases e with
  | ended result =>
      rcases rest with _ | ⟨_ | call | _, rest⟩
      case cons.call =>
        rcases List.mem_cons.mp h with heq | hmem
        · cases heq
          exact .inr (.inl ⟨result, call, List.mem_cons_self, rfl⟩)
        · exact .inl (List.mem_cons_of_mem _ hmem)
      all_goals exact .inl h
  | moved position =>
      rcases List.mem_cons.mp h with heq | hmem
      · cases heq
      · exact .inl hmem
  | called call k =>
      rcases List.mem_cons.mp h with heq | hmem
      · cases heq
        exact .inr (.inr (.inl ⟨k, rfl⟩))
      · rcases List.mem_cons.mp hmem with heq | hmem
        · cases heq
        · exact .inl hmem
  | turned r =>
      cases r with
      | stay call =>
          rcases List.mem_cons.mp h with heq | hmem
          · cases heq
            exact .inr (.inr (.inr (.inl rfl)))
          · exact .inl hmem
      | run code call =>
          rcases List.mem_cons.mp h with heq | hmem
          · cases heq
          · rcases List.mem_cons.mp hmem with heq | hmem
            · cases heq
              exact .inr (.inr (.inr (.inr ⟨code, rfl⟩)))
            · exact .inl hmem
      | ret answer | fail fault => exact .inl (hfinished h)
      | abort => cases h

namespace Guarded

variable {next : κ → Move κ ω (Call α β) (Answer β) ρ ε} {value : α} {world : ω} {codes : List κ}
  {s s₀ s' : State κ ω (Guarded α) (Call α β) (Answer β) ε} {t u : Tid} {choice : Choice}
  {g g' : Guarded α} {call : Call α β} {r : Turn κ (Call α β) (Answer β)}

/-! ### Calls -/

/-- Whether a call is a visit that has found its predicate false, and has not tested it again. -/
def Call.dozes : Call α β → Bool
  | .visit _ phase => phase.dozes
  | _ => false

/-- Whether a call does not find a predicate false in its next step. -/
def Call.content (a : α) : Call α β → Bool
  | .visit v (.testing _) =>
    match v.await with
    | none => true
    | some p =>
      match p a with
      | .ok false => false
      | _ => true
  | _ => true

/-- The fault that strikes a visit in its next step, in its predicate or in its section. -/
def Call.struck? (a : α) : Call α β → Option Fault
  | .visit v (.testing _) => v.await.bind fun p => faultOf (p a)
  | .visit v (.acting _) => faultOf (v.body a).2
  | _ => none

/-- The fault with which a visit is about to leave. -/
def Call.carried? : Call α β → Option Fault
  | .visit _ phase => phase.carried?
  | _ => none

/-- The critical section that a call runs in its next step. -/
def Call.section? : Call α β → Option (Critical α β)
  | .visit v (.acting _) => some v.body
  | .update body => some body
  | .exclusive body => some body
  | _ => none

/-- Whether the next step of a call poisons the monitor: a visit leaves with a fault, or the last
handle is given up because of one. -/
def Call.poisons (g : Guarded α) : Call α β → Bool
  | .visit _ phase => phase.carried?.isSome
  | .unshare true =>
    match g.lease with
    | some l => l.handles ≤ 1
    | none => false
  | _ => false

theorem leaseTurn_stained (l : Lease) (p : Bool) (hcall : ∀ v phase, call ≠ .visit v phase)
    (hlease : g.lease = some l) : leaseTurn (κ := κ) (g.stained p) l call =
      (leaseTurn g l call).map fun (g', r) => (g'.stained (p || call.poisons g), r) := by
  cases call with
  | visit v phase => exact absurd rfl (hcall v phase)
  | unshare faulted =>
      by_cases hlast : l.handles ≤ 1
      · cases hin : l.entered <;> cases faulted <;>
          simp [leaseTurn, hlast, hin, hlease, stained, Call.poisons, Monitor.stained,
            Monitor.release, Monitor.releaseFaulted]
      · cases faulted <;> simp [leaseTurn, hlast, hlease, stained, Call.poisons, Monitor.stained]
  | update body =>
      cases hin : l.entered <;>
        simp [leaseTurn, hin, stained, Call.poisons, Monitor.stained]
  | enter => cases hin : l.entered <;> simp [leaseTurn, hin, stained, Call.poisons]
  | share | handles | exit => simp [leaseTurn, stained, Call.poisons]
  | notifyOne | notifyAll | lease | exclusive _ => rfl

/-- **The mark does not matter** to a call that does not doze. -/
theorem turn_stained (hcall : call.dozes = false) (p : Bool) :
    turn (κ := κ) t choice (g.stained p) call = (turn t choice g call).map fun (g', r) =>
      (g'.stained (p || call.poisons g), r) := by
  have hlease : (g.stained p).lease = g.lease := rfl
  cases call with
  | visit v phase =>
      have hvisit : v.turn t choice (g.monitor.stained p) phase = _ := Visit.turn_stained hcall p
      have hmonitor : (g.stained p).monitor = g.monitor.stained p := rfl
      simp only [turn, hmonitor, hvisit, Option.map_map]
      rfl
  | notifyOne | notifyAll =>
      simp [turn, stained, Call.poisons, Monitor.stained, Monitor.notifyOne, Monitor.notifyAll]
  | lease =>
      have hmonitor : (g.stained p).monitor = g.monitor.stained p := rfl
      simp only [turn, hmonitor, Monitor.acquire_stained, Option.map_map]
      cases g.monitor.acquire t <;> simp [stained, Call.poisons]
  | exclusive body =>
      cases hfree : g.monitor.owner.isNone <;>
        simp [turn, stained, Monitor.stained, hfree, Call.poisons]
  | share | unshare | handles | enter | update | exit =>
      simp only [turn, hlease]
      cases hl : g.lease with
      | none => rfl
      | some l =>
          dsimp only
          by_cases hholder : l.holder = t
          · rw [if_pos hholder, if_pos hholder]
            exact leaseTurn_stained l p (by rintro _ _ ⟨⟩) hl
          · rw [if_neg hholder, if_neg hholder]
            rfl

/-- A call leaves the mark as it was, unless it poisons the monitor. -/
theorem poisoned_eq_of_turn (h : turn t choice g call = some (g', r)) :
    g'.monitor.poisoned = (g.monitor.poisoned || call.poisons g) := by
  by_cases hvisit : ∃ v phase, call = .visit v phase
  · obtain ⟨v, phase, rfl⟩ := hvisit
    obtain ⟨⟨monitor, progress⟩, hvisit, heq⟩ := Option.map_eq_some_iff.mp h
    cases heq
    exact Visit.poisoned_eq_of_turn hvisit
  · cases operated_of_turn (fun v phase heq => hvisit ⟨v, phase, heq⟩) h with
    | @returned l faulted hlease _ hlast _ =>
        cases faulted <;>
          simp [Call.poisons, hlease, hlast, Monitor.release, Monitor.releaseFaulted]
    | @unshared l faulted hlease _ hmore =>
        cases faulted <;> simp [Call.poisons, hlease, Nat.not_le_of_lt hmore]
    | _ => exact (Bool.or_false _).symm

/-- The value changes only in a step that runs a critical section, and is what the section wrote,
whether the section failed or not. -/
theorem value_of_turn (h : turn t choice g call = some (g', r)) :
    g'.monitor.value = call.section?.elim g.monitor.value fun body => (body g.monitor.value).1 := by
  by_cases hvisit : ∃ v phase, call = .visit v phase
  · obtain ⟨v, phase, rfl⟩ := hvisit
    obtain ⟨⟨monitor, progress⟩, hvisit, heq⟩ := Option.map_eq_some_iff.mp h
    cases heq
    cases Visit.turned_of_turn hvisit <;> rfl
  · cases operated_of_turn (fun v phase heq => hvisit ⟨v, phase, heq⟩) h with
    | @returned l faulted _ _ _ _ => cases faulted <;> rfl
    | _ => rfl

/-! ### Every call of a state -/

/-- A call that code makes is one that it asks for, from its beginning. -/
theorem exists_request {position : κ} {k : Except Fault (Answer β) → κ}
    (h : (machine next).next position = .call call k) :
    ∃ request k', next position = .call request k' ∧ call = request.fresh := by
  have hmap : (next position).map Call.fresh id = .call call k := h
  cases hmove : next position with
  | call request k' =>
      rw [hmove] at hmap
      cases hmap
      exact ⟨request, _, rfl, rfl⟩
  | ret _ | fail _ | note _ _ | act _ =>
      rw [hmove] at hmap
      cases hmap

/-- What holds of a call when code makes it, and is kept when a visit goes on, holds of all calls.
-/
theorem calls_of_step {Q : Call α β → Prop} (hs : ∀ u call, .call call ∈ s.stack u → Q call)
    (hcalled : ∀ position request k, next position = .call request k → Q request.fresh)
    (hgoes : ∀ call rest g' call', s.stack t = .call call :: rest →
      turn (κ := κ) t choice s.shared call = some (g', .stay call') → Q call → Q call')
    (hstep : (machine next).step t choice s = some s') :
    ∀ u call, .call call ∈ s'.stack u → Q call := by
  intro u call' hmem
  by_cases hu : u = t
  case neg =>
    rw [Machine.stack_of_step_ne hstep hu] at hmem
    exact hs u call' hmem
  subst hu
  obtain ⟨-, ht, frame, rest, shared, world, events, e, hstack, heffect, rfl⟩ :=
    Machine.exists_effect hstep
  have hstack' : (s.going u shared world (e.layers (machine next) rest) events).stack u =
      e.layers (machine next) rest := State.going_stack ht
  have hmem : .call call' ∈ e.layers (machine next) rest := hstack' ▸ hmem
  have hbelow : ∀ call, .call call ∈ rest → Q call := fun call hcall =>
    hs u call (hstack ▸ List.mem_cons_of_mem _ hcall)
  rcases Machine.call_mem_layers hmem with hold | ⟨result, call, hold, heq⟩ | hnew
  · exact hbelow call' hold
  · obtain rfl : call' = call := heq
    exact hbelow call' hold
  · cases frame with
    | wait k => cases heffect
    | code position =>
        simp only [Machine.effect] at heffect
        cases hnext : (machine next).next position with
        | ret _ | fail _ | note _ _ =>
            rw [hnext] at heffect
            cases heffect
            rcases hnew with ⟨_, heq⟩ | heq | ⟨_, heq⟩ <;> cases heq
        | act f =>
            rw [hnext] at heffect
            obtain ⟨⟨world', position'⟩, -, heq⟩ := Option.map_eq_some_iff.mp heffect
            cases heq
            rcases hnew with ⟨_, heq⟩ | heq | ⟨_, heq⟩ <;> cases heq
        | call called k =>
            rw [hnext] at heffect
            cases heffect
            obtain ⟨request, k', hmove, rfl⟩ := exists_request hnext
            rcases hnew with ⟨_, heq⟩ | heq | ⟨_, heq⟩ <;> cases heq
            exact hcalled position request k' hmove
    | call call =>
        obtain ⟨⟨g', events', r⟩, hturn, heq⟩ := Option.map_eq_some_iff.mp heffect
        cases heq
        obtain ⟨⟨g', r⟩, hturn, heq⟩ := Option.map_eq_some_iff.mp hturn
        cases heq
        rcases hnew with ⟨_, heq⟩ | heq | ⟨code, heq⟩ <;> cases heq
        · exact hgoes call rest _ call' hstack hturn (hs u call (hstack ▸ List.mem_cons_self))
        · exact absurd rfl ((turn_plain hturn).2 code call')

/-- Whether no visit is about to fall asleep, asleep, or awake again without another test. -/
def Awake (s : State κ ω (Guarded α) (Call α β) (Answer β) ε) : Prop :=
  ∀ t call, .call call ∈ s.stack t → call.dozes = false

/-- Whether no visit that tests its predicate finds it false. -/
def Content (s : State κ ω (Guarded α) (Call α β) (Answer β) ε) : Prop :=
  ∀ t < s.threads.length, (current s t).all (Call.content s.shared.monitor.value) = true

instance : Decidable (Content s) := by
  unfold Content
  infer_instance

/-! ### Steps -/

/-- Whether the next step of a thread poisons the monitor. -/
def poisonsAt (s : State κ ω (Guarded α) (Call α β) (Answer β) ε) (t : Tid) : Bool :=
  (current s t).elim false (Call.poisons s.shared)

/-- A step is one of code, which leaves the guarded value alone, or the turn of a call. -/
theorem shared_of_step (hstep : (machine next).step t choice s = some s') :
    current s t = none ∧ s'.shared = s.shared ∨ ∃ call rest, ∃ r : Turn κ (Call α β) (Answer β),
      s.stack t = .call call :: rest ∧ turn t choice s.shared call = some (s'.shared, r) := by
  obtain ⟨-, -, frame, rest, shared, world, events, e, hstack, heffect, rfl⟩ :=
    Machine.exists_effect hstep
  cases frame with
  | wait k => cases heffect
  | code position =>
      refine .inl ⟨by rw [current, hstack, callsOf_code], ?_⟩
      simp only [Machine.effect] at heffect
      cases hnext : (machine next).next position with
      | ret _ | fail _ | note _ _ | call _ _ =>
          rw [hnext] at heffect
          cases heffect
          rfl
      | act f =>
          rw [hnext] at heffect
          obtain ⟨⟨world', position'⟩, -, heq⟩ := Option.map_eq_some_iff.mp heffect
          cases heq
          rfl
  | call call =>
      obtain ⟨⟨g', events', r⟩, hturn, heq⟩ := Option.map_eq_some_iff.mp heffect
      cases heq
      obtain ⟨⟨g', r⟩, hturn, heq⟩ := Option.map_eq_some_iff.mp hturn
      cases heq
      exact .inr ⟨call, rest, r, hstack, hturn⟩

/-- A step leaves the mark as it was, unless it poisons the monitor. -/
theorem poisoned_of_step (hstep : (machine next).step t choice s = some s') :
    s'.shared.monitor.poisoned = (s.shared.monitor.poisoned || poisonsAt s t) := by
  rcases shared_of_step hstep with ⟨hcode, hshared⟩ | ⟨call, rest, r, hstack, hturn⟩
  · rw [hshared, poisonsAt, hcode]
    exact (Bool.or_false _).symm
  · rw [poisoned_eq_of_turn hturn, poisonsAt, current_of_stack hstack]
    rfl

/-- **What was written stays.** A step leaves the value as it was, unless it runs a critical
section; then the value is what the section wrote, whether the section failed or not. -/
theorem value_of_step (hstep : (machine next).step t choice s = some s') :
    s'.shared.monitor.value = ((current s t).bind Call.section?).elim s.shared.monitor.value
      fun body => (body s.shared.monitor.value).1 := by
  rcases shared_of_step hstep with ⟨hcode, hshared⟩ | ⟨call, rest, r, hstack, hturn⟩
  · rw [hshared, hcode]
    rfl
  · rw [value_of_turn hturn, current_of_stack hstack]
    rfl

/-- **One step** does the same whatever the mark is, while no visit dozes. -/
theorem step_stained (hs : Awake s) (t : Tid) (choice : Choice) (p : Bool) :
    (machine next).step t choice (s.stained p) =
      ((machine next).step t choice s).map (·.stained (p || poisonsAt s t)) := by
  cases hlive : s.aborted with
  | true =>
      have hdead : (s.stained p).aborted = true := hlive
      rw [Machine.step, Machine.step, if_pos hlive, if_pos hdead, Option.map_none]
  | false =>
      cases hstack : s.stack t with
      | nil =>
          rw [Machine.step_eq_none (fun _ => hstack),
            Machine.step_eq_none (s := s.stained p) (fun _ => hstack), Option.map_none]
      | cons frame rest =>
          have hlive' : (s.stained p).aborted = false := hlive
          have hstack' : (s.stained p).stack t = frame :: rest := hstack
          rw [Machine.step_eq hlive hstack, Machine.step_eq hlive' hstack', Option.map_map]
          cases frame with
          | wait k => rfl
          | code position =>
              have hnone : poisonsAt s t = false := by
                rw [poisonsAt, current, hstack, callsOf_code]
                rfl
              rw [hnone, Bool.or_false]
              simp only [Machine.effect]
              cases (machine next).next position with
              | ret _ | fail _ | note _ _ | call _ _ => rfl
              | act f =>
                  simp only [Option.map_map]
                  rfl
          | call call =>
              have hpoisons : poisonsAt s t = call.poisons s.shared := by
                rw [poisonsAt, current_of_stack hstack]
                rfl
              have hturn : turn (κ := κ) t choice (s.shared.stained p) call = _ :=
                turn_stained (hs t call (hstack ▸ List.mem_cons_self)) p
              have hshared : (s.stained p).shared = s.shared.stained p := rfl
              simp only [Machine.effect, machine, hshared, hturn, hpoisons, Option.map_map]
              rfl

/-- A visit that tests its predicate, as the next thing its thread does, does not find it false. -/
theorem Content.test {v : Visit α β} {q : α → Except Fault Bool} {again : Bool}
    {rest : Stack κ (Call α β) (Answer β)} (hs : Content s) (hawait : v.await = some q)
    (hstack : s.stack t = .call (.visit v (.testing again)) :: rest) :
    q s.shared.monitor.value ≠ .ok false := by
  intro hfalse
  have ht : t < s.threads.length := State.lt_of_stack_ne_nil (by simp [hstack])
  have hall := hs t ht
  rw [current_of_stack hstack, Option.all_some, Call.content, hawait] at hall
  simp [hfalse] at hall

/-- Threads that begin with code are awake. -/
theorem awake_ofCodes (g : Guarded α) (world : ω) (codes : List κ) :
    Awake (.ofCodes g world codes : State κ ω (Guarded α) (Call α β) (Answer β) ε) := by
  intro t call hmem
  rcases State.stack_ofCodes rfl t with hnil | ⟨code, hcode⟩
  · rw [hnil] at hmem
    cases hmem
  · rw [hcode] at hmem
    cases List.mem_singleton.mp hmem

/-- Nobody dozes off who does not find a predicate false. -/
theorem awake_of_step (hs : Awake s) (hcontent : Content s)
    (hstep : (machine next).step t choice s = some s') : Awake s' := by
  refine calls_of_step (Q := fun call => call.dozes = false) hs ?_ ?_ hstep
  · intro position request k hnext
    cases request <;> rfl
  · intro call rest g' call' hstack hturn hcall
    obtain ⟨v, phase, phase', monitor, rfl, rfl, -, hvisit⟩ := visit_of_stay hturn rfl
    refine Visit.dozes_of_turn hvisit hcall fun q again hq hphase => ?_
    subst hphase
    exact hcontent.test hq hstack

/-- **Runs** go the same way whatever the mark is at their beginning, while no visit that tests its
predicate finds it false, and end in states that differ in the mark only. -/
theorem runs_stained {order : List (Tid × Choice)} (hs₀ : Awake s₀)
    (h : (machine next).Runs Content s₀ order s) : Awake s ∧ ∃ q,
      s.shared.monitor.poisoned = (s₀.shared.monitor.poisoned || q) ∧
      ∀ p, (machine next).Runs Content (s₀.stained p) order (s.stained (p || q)) := by
  induction h with
  | start =>
      refine ⟨hs₀, false, (Bool.or_false _).symm, fun p => ?_⟩
      rw [Bool.or_false]
      exact .start
  | @step order s s' t choice _ hcontent hstep ih =>
      obtain ⟨hawake, q, hpoisoned, hruns⟩ := ih
      refine ⟨awake_of_step hawake hcontent hstep, q || poisonsAt s t, ?_, fun p => ?_⟩
      · rw [poisoned_of_step hstep, hpoisoned, Bool.or_assoc]
      · rw [← Bool.or_assoc]
        refine (hruns p).step t choice hcontent ?_
        rw [step_stained hawake, hstep]
        rfl

end Guarded

end Offload
