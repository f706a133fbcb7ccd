import Offload.Proofs.Leads
import Offload.Proofs.Pipeline.Drains

/-!
# What a drain delivers

In every run, whatever its callbacks and others do meanwhile, a drain of up to `k` results takes out
at most `k`, each when it is the first that waits, and delivers them. It stops short of `k` only
when it finds none or a callback fails, and answers whether results were left when it looked. While
nobody else changes the finished channel, these are the first `k` of the results that waited at its
beginning. It waits for nothing but the lock of that channel.

## Main results

* `UnderWay.of_own`, `UnderWay.of_other`: one step of the drain's thread, and of another.
* `drain_bounded`: what a drain takes out, what it answers, and what it waits for.
-/

namespace Offload.Pipeline

variable {κ ω V E ν : Type} {plan : Plan κ} {t u : Tid} {choice : Choice}

/-! ### All runs -/

section Runs

variable {next : κ → Move κ ω (Request κ V E) Answer (Except E V) ν} {world : ω} {codes : List κ}
  {s s' : State κ ω (Pipeline κ V E) (Call κ V E) Answer (Event V E ν)}
  {frames : Stack κ (Call κ V E) Answer} {call : Call κ V E} {k : Nat} {x x' : Watch κ V E ν}
  {first : List (Finished κ V E)}

/-- The fault in which code ends in its next step that runs right above the first `depth` layers of
a thread. -/
def endsIn? (next : κ → Move κ ω (Request κ V E) Answer (Except E V) ν) (depth : Nat) :
    Stack κ (Call κ V E) Answer → Option Fault
  | .code position :: rest =>
    if rest.length = depth then
      match next position with
      | .fail fault => some fault
      | _ => none
    else none
  | _ => none

/-- The observer of a drain that thread `t` makes right above its first `depth` layers. -/
def watching (next : κ → Move κ ω (Request κ V E) Answer (Except E V) ν) (t : Tid) (depth : Nat) :
    Machine.Observer κ ω (Pipeline κ V E) (Call κ V E) Answer (Event V E ν) (Watch κ V E ν) :=
  fun u s s' x =>
    if u = t ∧ (s.stack t).length = depth + 1 then
      x.own (callsOf (s.stack t)).active s.shared.finished.value s'.shared.finished.value
        ((s'.history.drop s.history.length).map Prod.snd)
    else
      x.aside (if u = t then endsIn? next (depth + 1) (s.stack t) else none)
        s.shared.finished.value s'.shared.finished.value

/-- A step of the drain itself is seen as such. -/
theorem watching_own {events : List (Event V E ν)} (hstack : s.stack t = .call call :: frames)
    (hhistory : s'.history = s.history ++ events.map (Prod.mk t)) (x : Watch κ V E ν) :
    watching next t frames.length t s s' x =
      x.own (some call) s.shared.finished.value s'.shared.finished.value events := by
  have hlength : (s.stack t).length = frames.length + 1 := by rw [hstack]; rfl
  have hevents : (s'.history.drop s.history.length).map Prod.snd = events := by
    rw [hhistory, List.drop_left, List.map_map]
    exact List.map_id events
  rw [watching, if_pos ⟨rfl, hlength⟩, hevents, hstack]
  rfl

/-- So is a step of another thread. -/
theorem watching_other (hu : u ≠ t) (depth : Nat) (s s' : State κ ω (Pipeline κ V E) (Call κ V E)
    Answer (Event V E ν)) (x : Watch κ V E ν) : watching next t depth u s s' x =
      x.aside none s.shared.finished.value s'.shared.finished.value := by
  rw [watching, if_neg fun h => hu h.1, if_neg hu]

/-- So is a step of code above the drain. -/
theorem watching_above {above : Stack κ (Call κ V E) Answer} (hne : above ≠ [])
    (hstack : s.stack t = above ++ .call call :: frames) (x : Watch κ V E ν) :
    watching next t frames.length t s s' x =
      x.aside (endsIn? next (frames.length + 1) (s.stack t)) s.shared.finished.value
        s'.shared.finished.value := by
  have hlength : (s.stack t).length ≠ frames.length + 1 := by
    have hpos := List.length_pos_of_ne_nil hne
    rw [hstack, List.length_append, List.length_cons]
    omega
  rw [watching, if_neg fun h => hlength h.2, if_pos rfl]

/-- The fault in which code ends right above a call is seen. -/
theorem endsIn?_of_fail {position : κ} {fault : Fault}
    (hnext : (machine plan next).next position = .fail fault) :
    endsIn? next (frames.length + 1) (.code position :: .call call :: frames) = some fault := by
  rw [endsIn?, if_pos (List.length_cons ..), Move.map_eq_fail_iff.mp hnext]

/-- Whether thread `t` is on its way in a drain of up to `k` results, which makes its next step or
has called a callback; `first` waited when it began. -/
inductive UnderWay (plan : Plan κ) (t : Tid) (frames : Stack κ (Call κ V E) Answer) (k : Nat)
    (first : List (Finished κ V E)) (x : Watch κ V E ν)
    (s : State κ ω (Pipeline κ V E) (Call κ V E) Answer (Event V E ν)) : Prop where
  | itself (call : Call κ V E) : s.stack t = .call call :: frames →
      Standing plan k x s.shared.finished.value call →
      (¬ x.disturbed → first = x.taken ++ s.shared.finished.value) →
      UnderWay plan t frames k first x s
  | calling (above : Stack κ (Call κ V E) Answer) (left : Nat) : above ≠ [] → Nested false above →
      s.stack t = above ++ .call (.inside (.draining (.going left))) :: frames →
      Standing plan k x s.shared.finished.value (.inside (.draining (.going left))) →
      (¬ x.disturbed → first = x.taken ++ s.shared.finished.value) →
      UnderWay plan t frames k first x s

/-- What waited first is what has been taken out and what waits, unless others have changed that. -/
theorem first_aside {fault? : Option Fault} {before after : List (Finished κ V E)}
    (h : ¬ x.disturbed → first = x.taken ++ before) :
    ¬ (x.aside fault? before after).disturbed → first = x.taken ++ after := by
  intro hdisturbed
  obtain ⟨hnot, hsame⟩ := not_or.mp hdisturbed
  rw [not_not.mp hsame]
  exact h hnot

/-- **A drain on its way, a step of another thread.** -/
theorem UnderWay.of_other (h : UnderWay plan t frames k first x s) (hu : u ≠ t)
    (hstep : (machine plan next).step u choice s = some s') :
    UnderWay plan t frames k first (watching next t frames.length u s s' x) s' := by
  have hsame := Machine.stack_of_step_ne hstep (Ne.symm hu)
  rw [watching_other hu]
  cases h with
  | itself call hstack hstanding hfirst =>
      exact .itself call (hsame.trans hstack) hstanding.aside (first_aside hfirst)
  | calling above left hne hnest hstack hstanding hfirst =>
      exact .calling above left hne hnest (hsame.trans hstack) hstanding.aside (first_aside hfirst)

/-- **A drain on its way, a step of its thread.** It goes on, or comes to its end. -/
theorem UnderWay.of_own (h : UnderWay plan t frames k first x s)
    (hstep : (machine plan next).step t choice s = some s') (hlive : s'.aborted = false) :
    UnderWay plan t frames k first (watching next t frames.length t s s' x) s' ∨
      ∃ outcome, s'.stack t = Machine.finishCall outcome frames ∧
        (watching next t frames.length t s s' x).steps ≤ 5 * k + 7 ∧
        Drained k first (watching next t frames.length t s s' x) s'.shared.finished.value
          outcome := by
  cases h with
  | itself call hstack hstanding hfirst =>
      obtain ⟨shared, events, r, hturn, rfl, hhistory, hafter⟩ := Machine.turn_of_step hstack hstep
      obtain ⟨htakes, hfollows⟩ := hstanding.of_own hfirst hturn
      have hfirst' := Watch.first_own (some call) events hfirst
        (htakes.imp_right fun ⟨f, hvalue, _⟩ => ⟨f, hvalue⟩)
      rw [watching_own hstack hhistory]
      cases hfollows with
      | on call' hstanding' => exact .inl (.itself call' hafter hstanding' hfirst')
      | calls code left hstanding' =>
          exact .inl (.calling [.code code] left (List.cons_ne_nil _ _) (.code code) hafter
            hstanding' hfirst')
      | ended outcome hr hsteps hdrained =>
          exact .inr ⟨outcome, hafter.trans (hr frames), hsteps, hdrained⟩
  | calling above left hne hnest hstack hstanding hfirst =>
      rw [watching_above hne hstack]
      obtain ⟨hleft, hnoted, hsteps⟩ : x.Between k left 2 := by
        cases hstanding
        assumption
      refine .inl ?_
      rcases Machine.above_of_step hnest hne hstack hstep with
        ⟨above', hne', hnest', hstack'⟩ | ⟨result, hstack'⟩ | haborted
      · exact .calling above' left hne' hnest' hstack' (.going left ⟨hleft, hnoted, hsteps⟩)
          (first_aside hfirst)
      · -- the callback has ended, and its end decides how the drain goes on
        obtain ⟨position, rfl, hend⟩ := Machine.end_of_step hnest hne hstack hstep hstack'
        rcases hend with ⟨value, hnext, heq⟩ | ⟨fault, hnext, heq⟩
        · rw [heq] at hstack'
          exact .itself _ hstack' (.going left ⟨hleft, hnoted, hsteps⟩) (first_aside hfirst)
        · rw [heq] at hstack'
          refine .itself _ hstack' (.failing fault ⟨hnoted, ?_, ?_, ?_⟩) (first_aside hfirst)
          · exact hsteps.le.trans (by omega)
          · exact (Nat.le_add_right _ _).trans hleft.le
          · rw [hstack]
            exact congrArg (Option.or · x.fault) (endsIn?_of_fail hnext)
      · rw [haborted] at hlive
        cases hlive

/-- A drain that is the topmost layer of its thread can make a step, or waits for the lock of the
finished channel, whose owner can make one. -/
theorem Standing.moves_or_waits {value : List (Finished κ V E)} (h : Standing plan k x value call)
    (hreach : (machine plan next).Reach (start world codes) s) (hlive : s.aborted = false)
    (hstack : s.stack t = .call call :: frames) :
    (∀ choice, ((machine plan next).step t choice s).isSome = true) ∨
      locks.Waits (machine plan next) s t .finished ∧ ∀ u, owner s.shared .finished = some u →
        ∀ choice, ((machine plan next).step u choice s).isSome = true := by
  obtain ⟨hprompt, hwants⟩ := h.isPrompt (t := t)
  rcases hprompt.moves_or_waits hlive hstack with hmoves | ⟨l, hwaits⟩
  · exact .inl hmoves
  · obtain ⟨-, call', rest, hstack', hl⟩ :=
      Locks.exists_of_waits (machine_fits plan next) (locks_fits plan) hwaits
    cases hstack.symm.trans hstack'
    obtain rfl := hwants l hl
    exact .inr ⟨hwaits, fun u howner =>
      isSome_step_of_owner hreach hlive (show Lock.finished ≠ .intake from nofun) howner⟩

end Runs

/-! ### A run in which a drain delivers one of two results -/

/-- What the code of the run asks for. -/
inductive Quest where
  /-- Schedules a task that does nothing and has a callback for values. -/
  | schedule
  | drain (max : Nat)

/-- The code of the run. -/
abbrev Quester := Script Quest Answer Unit Unit (Except Unit Unit)

/-- The request that a quest stands for. -/
def Quest.request : Quest → Request Quester Unit Unit
  | .schedule => .handing { body := some (.ret (.ok ())), onValue := some fun _ => .ret (.ok ()) }
  | .drain max => .draining (some max)

end Offload.Pipeline
